import TripleStore.Database.Basic
import TripleStore.Inference

/-!
# Insertion

An insertion makes a new version of a graph.  It holds the statements of the
latest version and those of the dataset, closed under inverse properties.  The
version is the time of the insertion, or the time after the latest version if the
clock has not come that far.  So the versions of a graph ascend whatever the
clock does.

The statements of the latest version are read back from its entities.

An insertion that fails may have changed the tables, so it answers with the
database it leaves behind in any case.  The catalogue is changed at the very end.
-/

namespace TripleStore

/-- A graph with one more version and the prefixes of a dataset.  They replace its own. -/
def GraphInfo.addVersion (info : GraphInfo) (version : UInt64) (declared : Namespaces) :
    GraphInfo where
  versions := info.versions ++ [version]
  namespaces := declared.foldl (fun m name ns => m.insert name ns) info.namespaces

namespace Tables

/-- The term of a statement's subject, with the terms of its statements. -/
def triplesOf (t : Tables) (e : Entity) : Except Fault (List Triple) := do
  let subject ← t.dictionary.term e.key
  (Entity.statementPairs e.outgoing).mapM fun p => do
    let predicate ← t.dictionary.term p.1
    let object ← t.dictionary.term p.2
    return ⟨subject, predicate, object⟩

/-- The statements of a version of a graph. -/
def triplesAt (t : Tables) (graph : String) (version : UInt64) : Except Fault (List Triple) := do
  let entities ← (Cursor.new graph version ∅).entities t
  return (← entities.mapM t.triplesOf).flatten

/-- Tables with the records of an adjacency. -/
def putAdjacency (t : Tables) (a : Adjacency) : Tables :=
  { t with store := t.store.putEntities a.toList }

/-- Store a version of a graph: first its statements, and then its shortcuts too. -/
def addVersion (t : Tables) (graph : String) (version : UInt64) (ts : List Triple) :
    Except Fault Unit × Tables :=
  match Adjacency.compile graph version ts t.dictionary with
  | .error e => (.error e, t)
  | .ok (a, dictionary) =>
    let t := putAdjacency { t with dictionary } a
    match (Cursor.new graph version ∅).addAllShortcuts t a with
    | (.ok _, a, _) => (.ok (), t.putAdjacency a)
    | (.error e, _, _) => (.error e, t)

end Tables

namespace Database

/-- The latest version of a graph. -/
def latest? (db : Database) (graph : String) : Option UInt64 :=
  db.catalogue[graph]?.bind fun info => info.versions.getLast?

/-- The version that an insertion makes. -/
def nextVersion (db : Database) (graph : String) (now : UInt64) : UInt64 :=
  match db.latest? graph with
  | some v => max now (v + 1)
  | none => now

/-- The statements of the latest version of a graph. -/
def currentTriples (db : Database) (graph : String) : Except Fault (List Triple) :=
  match db.latest? graph with
  | some v => db.tables.triplesAt graph v
  | none => .ok []

/-- Insert a dataset into a graph.  The answer is the new version. -/
def insert (db : Database) (now : UInt64) (graph : String) (d : Dataset) :
    Except Fault UInt64 × Database :=
  match db.currentTriples graph with
  | .error e => (.error e, db)
  | .ok held =>
    let version := db.nextVersion graph now
    match db.tables.addVersion graph version (Inference.close (held ++ d.triples)) with
    | (.error e, tables) => (.error e, { db with tables })
    | (.ok _, tables) =>
      let catalogue := db.catalogue.alter graph fun info =>
        some ((info.getD .empty).addVersion version d.namespaces)
      (.ok version, { db with tables, catalogue })

end Database

end TripleStore
