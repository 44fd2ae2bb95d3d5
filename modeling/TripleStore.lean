import TripleStore.Host.FileTree
import TripleStore.Json.Shape
import TripleStore.Main
import TripleStore.Proofs.Query.Solution
import TripleStore.Proofs.Store
import TripleStore.Proofs.Relation.Change
import TripleStore.Proofs.Walk.Paths
import TripleStore.Proofs.Dictionary
import TripleStore.Proofs.Adjacency
import TripleStore.Proofs.Version
import TripleStore.Proofs.Query.Answer
import TripleStore.Proofs.Database.Reached
import TripleStore.Proofs.Database.Insert
import TripleStore.Proofs.Database.Answer
import TripleStore.Proofs.Query.Stable
import TripleStore.Proofs.Database.TimeTravel
import TripleStore.Proofs.Plan.Refusal
import TripleStore.Proofs.Dataset.Naming
import TripleStore.Proofs.Shortcuts.Complete
import TripleStore.Proofs.Query.Stop
import TripleStore.Proofs.Database.Legible
import TripleStore.Proofs.Walk.Mirrored
import TripleStore.Proofs.Database.Failure
import TripleStore.Proofs.Database.Isolation
import TripleStore.Proofs.Database.Snapshot
import TripleStore.Proofs.Host.Basic
import TripleStore.Proofs.Host.FileTree
import TripleStore.Proofs.Database.Files
import TripleStore.Proofs.Registration
import TripleStore.Proofs.Database.Count
import TripleStore.Proofs.Database.Growth
import TripleStore.Proofs.Query.Restored
import TripleStore.Proofs.Relation.Reached
import TripleStore.Proofs.Walk.Exact
import TripleStore.Proofs.Walk.Pairs
import TripleStore.Proofs.Query.Prefix
import TripleStore.Proofs.Query.Choice
import TripleStore.Proofs.Query.Crowded
import TripleStore.Proofs.Query.Repeated
import TripleStore.Proofs.Database.Reinserted
import TripleStore.Proofs.Compiled
import TripleStore.Proofs.Plan.Greedy
import TripleStore.Proofs.Relation.Appended
import TripleStore.Proofs.Query.Failing
import TripleStore.Proofs.Database.Session
import TripleStore.Proofs.Dataset.Written
import TripleStore.Proofs.Database.Versions
import TripleStore.Proofs.Store.Scan
import TripleStore.Proofs.Dataset.Prefixed
import TripleStore.Proofs.Query.Grammar
