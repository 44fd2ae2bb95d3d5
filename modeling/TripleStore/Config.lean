import Std.Data.ExtTreeMap.Lemmas
import TripleStore.Fault
import TripleStore.Json.Value

/-!
# Configurations

A configuration says where snapshots are kept, which data file each graph is
loaded from, and which further files are loaded into every graph.  Without a
directory nothing is kept.

A configuration is a JSON object with the field `database`, whose fields are
`path`, `graphs` and `ontologies`.  Every field may be missing.  Either object
may be written as the array of its fields.
-/

namespace TripleStore

/-- How a database is set up. -/
@[ext]
structure Config where
  /-- The directory of the snapshot files, or none to keep everything in memory. -/
  path : Option String
  /-- The data file of each graph. -/
  graphs : Std.ExtTreeMap String String compare
  /-- Files loaded into every graph. -/
  ontologies : List String
deriving DecidableEq

namespace Config

/-- Nothing is kept and nothing is loaded. -/
def inMemory : Config := ⟨none, ∅, []⟩

instance : Inhabited Config := ⟨inMemory⟩

/-! ## Reading -/

/-- The fields of a configuration that were given so far. -/
structure Draft where
  /-- The directory. -/
  path : Option (Option String) := none
  /-- The data files. -/
  graphs : Option (List (String × String)) := none
  /-- The further files. -/
  ontologies : Option (List String) := none

/-- A configuration from its fields. -/
def ofDraft (d : Draft) : Config :=
  ⟨d.path.getD none, Std.ExtTreeMap.ofList (d.graphs.getD []) compare, d.ontologies.getD []⟩

/-- The directory of the snapshots. -/
def readPath : Json.Reader (Option String) := .orNull .path

/-- The data files of the graphs. -/
def readGraphs : Json.Reader (List (String × String)) := .map .path

/-- The files loaded into every graph. -/
def readOntologies : Json.Reader (List String) := .list .path

/-- One field of the database. -/
def readField (d : Draft) (name : String) : Json.Reader Draft :=
  if name = "path" then return { d with path := ← .fill name d.path readPath }
  else if name = "graphs" then return { d with graphs := ← .fill name d.graphs readGraphs }
  else if name = "ontologies" then
    return { d with ontologies := ← .fill name d.ontologies readOntologies }
  else do
    Json.Reader.valueOf .skip
    return d

/-- The fields of the database as the items of an array. -/
def readItems : Json.Reader Draft := do
  let path ← .itemOf true readPath
  let graphs ← .itemOf false readGraphs
  let ontologies ← .itemOf false readOntologies
  return { path, graphs, ontologies }

/-- The part of a configuration about the database. -/
def readDatabase : Json.Reader Config :=
  ofDraft <$> .record "struct DatabaseConfig" readItems (.fields readField {})

/-- One field of a configuration. -/
def readSection (d : Option Config) (name : String) : Json.Reader (Option Config) :=
  if name = "database" then .fill name d readDatabase
  else do
    Json.Reader.valueOf .skip
    return d

/-- A configuration. -/
def read : Json.Reader Config :=
  (·.getD inMemory) <$>
    .record "struct HodConfig" (.itemOf true readDatabase) (.fields readSection none)

/-- A configuration from its text. -/
def ofText (text : String) : Except Fault Config :=
  (read.ofText text).mapError .badConfig

/-! ## Writing -/

/-- The value of a configuration. -/
def toJson (c : Config) : Json :=
  .object
    [("database",
      .object
        [("path", match c.path with | some p => .text p | none => .null),
         ("graphs", .object (c.graphs.toList.map fun g => (g.1, .text g.2))),
         ("ontologies", Json.ofTexts c.ontologies)])]

end Config

end TripleStore
