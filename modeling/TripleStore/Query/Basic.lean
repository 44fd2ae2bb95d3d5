import TripleStore.Json.Value
import TripleStore.Query.Pattern

/-!
# Queries

A query selects variables, names the graphs to look in, may be pinned to a time,
and lists the patterns that an answer has to match, all of them.  Naming no
graph, or `*` among the graphs, means every graph.

A query is a JSON object with the fields `select`, `graphs`, `version` and
`where`, or the array of the four.  `graphs` and `version` may be missing.  A
pattern is the array of its three parts.
-/

namespace TripleStore

/-- What is asked for. -/
@[ext]
structure Query where
  /-- The variables whose bindings are wanted. -/
  select : List String
  /-- The graphs to look in. -/
  graphs : List String
  /-- Look at the newest version at or before this time, not at the latest. -/
  version : Option UInt64
  /-- The patterns to match. -/
  patterns : List Pattern
deriving DecidableEq, Repr, Inhabited

namespace Query

/-- The name that stands for every graph. -/
def allGraphs : String := "*"

/-- Decide whether a query is about every graph. -/
def wantsAllGraphs (q : Query) : Bool := q.graphs.isEmpty || q.graphs.contains allGraphs

/-- The selected variables and then those of the patterns, in the order of first occurrence. -/
def allVariables (q : Query) : List String :=
  (q.patterns.flatMap Pattern.vars).foldl Pattern.addVariable q.select

/-! ## Reading -/

/-- The fields of a query that were given so far. -/
structure Draft where
  /-- The selected variables. -/
  select : Option (List String) := none
  /-- The graphs. -/
  graphs : Option (List String) := none
  /-- The time. -/
  version : Option (Option UInt64) := none
  /-- The patterns. -/
  patterns : Option (List Pattern) := none

/-- A pattern from its array. -/
def readPattern : Json.Reader Pattern := do
  let (subject, path, object) ← .triple .anyText
  match Pattern.ofParts subject path object with
  | .ok p => return p
  | .error e => .stop (.refused e.message)

/-- A list of texts. -/
def readNames : Json.Reader (List String) := .list .anyText

/-- The time. -/
def readVersion : Json.Reader (Option UInt64) := .orNull .word64

/-- The patterns. -/
def readPatterns : Json.Reader (List Pattern) := .list readPattern

/-- One field of a query. -/
def readField (d : Draft) (name : String) : Json.Reader Draft :=
  if name = "select" then return { d with select := ← .fill name d.select readNames }
  else if name = "graphs" then return { d with graphs := ← .fill name d.graphs readNames }
  else if name = "version" then return { d with version := ← .fill name d.version readVersion }
  else if name = "where" then return { d with patterns := ← .fill name d.patterns readPatterns }
  else do
    Json.Reader.valueOf .skip
    return d

/-- The fields of a query by their names. -/
def readFields : Json.Reader Query := do
  let d ← .fields readField {}
  let select ← .required "select" d.select
  let patterns ← .required "where" d.patterns
  return ⟨select, d.graphs.getD [], d.version.getD none, patterns⟩

/-- What messages call a query. -/
def shapeName : String := "struct SelectQuery"

/-- The fields of a query as the items of an array. -/
def readItems : Json.Reader Query := do
  let tooShort {α : Type} (n : Nat) : Json.Reader α :=
    .stop (.length n (shapeName ++ " with 4 elements"))
  let some select ← .itemOf true readNames | tooShort 0
  let graphs ← .itemOf false readNames
  let version ← .itemOf false readVersion
  let some patterns ← .itemOf false readPatterns | tooShort 3
  return ⟨select, graphs.getD [], version.getD none, patterns⟩

/-- A query. -/
def read : Json.Reader Query := .record shapeName readItems readFields

/-- A query from its text. -/
def ofText (text : String) : Except Fault Query :=
  (read.ofText text).mapError .badQuery

/-! ## Writing -/

/-- The value of a query. -/
def toJson (q : Query) : Json :=
  .object
    [("select", Json.ofTexts q.select),
     ("graphs", Json.ofTexts q.graphs),
     ("version", match q.version with | some v => .natural v.toNat | none => .null),
     ("where", .array (q.patterns.map fun p => Json.ofTexts p.parts))]

/-- The text of a query. -/
def toText (q : Query) : String := q.toJson.render

end Query

end TripleStore
