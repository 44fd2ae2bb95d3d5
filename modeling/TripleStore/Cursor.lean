import TripleStore.Adjacency
import TripleStore.Dataset.Basic
import TripleStore.Dictionary
import TripleStore.Relation.Basic
import TripleStore.Store
import TripleStore.Walk.Reading

/-!
# Cursors

A cursor looks at one version of a graph and collects the bindings of a query.
It belongs to no database.  Whatever it does is given the tables to read from,
which may have grown since it was used last.

Entities that were read are remembered and not read again.  As records of a
version do not change, remembering them is a matter of speed, and `forget` can be
called at any time.
-/

namespace TripleStore

/-- The records and the terms of all graphs. -/
@[ext]
structure Tables where
  /-- The records. -/
  store : Store
  /-- The terms. -/
  dictionary : Dictionary

instance : Inhabited Tables := ⟨⟨.empty, .empty⟩⟩

/-- A view of one version of a graph, with the bindings of a query. -/
@[ext]
structure Cursor where
  /-- The name of the graph. -/
  graph : String
  /-- The version. -/
  version : UInt64
  /-- The namespaces of the prefixes in queries. -/
  namespaces : Namespaces
  /-- The bindings. -/
  relation : Relation
  /-- The entities read so far. -/
  cache : Std.ExtTreeMap Key Entity compare

namespace Cursor

/-- A cursor that has read nothing and bound nothing. -/
def new (graph : String) (version : UInt64) (namespaces : Namespaces) : Cursor where
  graph
  version
  namespaces
  relation := .new []
  cache := ∅

/-- A cursor with bindings of variables of which nothing is known yet. -/
def withVariables (c : Cursor) (vars : List String) : Cursor := { c with relation := .new vars }

/-! ## Entities -/

/-- What a cursor can read: remembered entities first, then records. -/
def source (t : Tables) (c : Cursor) : Source := fun k =>
  match c.cache[k]? with
  | some e => .ok e
  | none => t.store.entity k

/-- A cursor that remembers the entities of a log. -/
def remember (c : Cursor) (log : ReadLog) : Cursor :=
  { c with cache := log.foldl (fun m p => m.insertIfNew p.1 p.2) c.cache }

/-- A cursor that remembers no entity. -/
def forget (c : Cursor) : Cursor := { c with cache := ∅ }

/-- Run a reading and remember what it read. -/
def run {α : Type} (t : Tables) (c : Cursor) (m : Reading α) : Except Fault α × Cursor :=
  let (answer, log) := m (c.source t)
  (answer, c.remember log)

/-- The entities of the version, by ascending key. -/
def entities (t : Tables) (c : Cursor) : Except Fault (List Entity) :=
  let lead := Binary.bigEndian 4 (Checksum.ofText c.graph).toNat
  ((t.store.scan lead).filter fun p => p.1.version = c.version).mapM fun p => p.2.entity

/-- Add the shortcuts that walks in the version find to an adjacency. -/
def addAllShortcuts (t : Tables) (c : Cursor) (a : Adjacency) :
    Except Fault Nat × Adjacency × Cursor :=
  let x := a.addAllShortcuts (c.source t)
  (x.outcome, x.adjacency, c.remember x.log)

/-! ## Terms -/

/-- A term with its prefix replaced by the namespace it stands for. -/
def expand (c : Cursor) (u : Uri) : Uri := u.expand c.namespaces

/-- The key of a term in the version. -/
def keyOf (t : Tables) (c : Cursor) (u : Uri) : Except Fault Key :=
  t.dictionary.keyFor c.graph (c.expand u) c.version

/-! ## Rows -/

/-- The distinct tuples of keys that rows bind to variables. -/
def keyRows (c : Cursor) (vars : List String) : List (List Key) := c.relation.project vars

/-- The distinct tuples of terms that rows bind to variables. -/
def termRows (t : Tables) (c : Cursor) (vars : List String) : Except Fault (List (List Uri)) :=
  (c.keyRows vars).mapM fun row => row.mapM t.dictionary.term

end Cursor

end TripleStore
