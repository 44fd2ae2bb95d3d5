import TripleStore.Cursor

/-!
# Databases

A database is the records and the terms of its graphs, and a catalogue that says
which versions each graph has and which prefixes.  The versions of a graph are
times, oldest first.

A graph is looked at as of some time.  `resolve` finds the newest version at or
before it, and the latest one if no time is given.
-/

namespace TripleStore

/-- What the catalogue says about a graph. -/
@[ext]
structure GraphInfo where
  /-- The versions, oldest first. -/
  versions : List UInt64
  /-- The namespaces of the prefixes. -/
  namespaces : Namespaces
deriving DecidableEq

/-- A graph without versions. -/
def GraphInfo.empty : GraphInfo := ⟨[], ∅⟩

/-- What is known of each graph. -/
abbrev Catalogue := Std.ExtTreeMap String GraphInfo compare

/-- Graphs with all their versions. -/
@[ext]
structure Database where
  /-- The records and the terms. -/
  tables : Tables
  /-- The graphs. -/
  catalogue : Catalogue
  /-- The directory of the snapshots, or none if there are none to be kept. -/
  directory : Option String

namespace Database

/-- A database without graphs that keeps no snapshots. -/
def empty : Database := ⟨default, ∅, none⟩

instance : Inhabited Database := ⟨empty⟩

/-- The names of the graphs, in order. -/
def graphs (db : Database) : List String := db.catalogue.keys

/-- The versions of a graph, oldest first. -/
def versions (db : Database) (graph : String) : Except Fault (List UInt64) :=
  match db.catalogue[graph]? with
  | some info => .ok info.versions
  | none => .error (.unknownGraph graph)

/-- The newest of some versions at or before a time. -/
def newestBy (time : Option UInt64) (versions : List UInt64) : Option UInt64 :=
  match time with
  | some t => versions.reverse.find? fun v => v ≤ t
  | none => versions.getLast?

/-- The version of a graph as of a time, or its latest version. -/
def resolve (db : Database) (graph : String) (time : Option UInt64) : Except Fault UInt64 := do
  let versions ← db.versions graph
  match newestBy time versions with
  | some v => return v
  | none => throw (.noVersion graph (time.getD 0))

/-- The namespaces of the prefixes of a graph. -/
def namespaces (db : Database) (graph : String) : Namespaces :=
  match db.catalogue[graph]? with
  | some info => info.namespaces
  | none => ∅

/-- A cursor on a graph as of a time. -/
def cursor (db : Database) (graph : String) (time : Option UInt64) : Except Fault Cursor := do
  let version ← db.resolve graph time
  return .new graph version (db.namespaces graph)

end Database

end TripleStore
