import TripleStore.Files.Fault
import TripleStore.Json.Shape
import TripleStore.Key

/-!
# Faults

Everything that can go wrong, by cause.  Each cause belongs to one of ten kinds,
which a caller may act on, and has one wording.

One cause is acted on inside the library.  A missing entity, `isNotFound`, means
that a walk has nothing to find there.  A fault met in the middle of a walk is
of another kind, so it is never taken for that.
-/

namespace TripleStore

/-- What went wrong. -/
inductive Fault where
  /-- No record is stored under the key, or no term is known for it. -/
  | notFound (key : Key)
  /-- There is no graph of that name. -/
  | unknownGraph (graph : String)
  /-- A graph has no version at or before a time. -/
  | noVersion (graph : String) (time : UInt64)
  /-- The record of an entity cannot be decoded. -/
  | badRecord (cause : Binary.Fault)
  /-- A snapshot of the records or of the catalogue cannot be decoded. -/
  | badSnapshot (cause : Binary.Fault)
  /-- A snapshot of the dictionary cannot be decoded. -/
  | badDictionary (cause : Binary.Fault)
  /-- Two terms have the same checksum. -/
  | collision (known incoming : Uri)
  /-- A query has no patterns. -/
  | noPatterns
  /-- A pattern has no predicate. -/
  | noPredicate (pattern : String)
  /-- A variable stands in a path of more than one plain hop. -/
  | variableInPath (pattern : String)
  /-- A pattern of three free variables would match the whole graph. -/
  | wholeGraph (term : String)
  /-- An operator needs a variable that its term does not have. -/
  | noVariable (role term : String)
  /-- An entity on the way of a walk cannot be read. -/
  | brokenWalk (key : Key) (cause : Fault)
  /-- A walk led to an entity that is not part of the version. -/
  | strayTarget (source target : Key)
  /-- A table of bindings would have more rows than it may have. -/
  | rowLimit (limit : Nat)
  /-- A path has a segment without a predicate. -/
  | emptySegment (path : String)
  /-- A text in a data file is no term. -/
  | notATerm (text : String)
  /-- A prefix is used and not declared. -/
  | undeclared (name : String)
  /-- A query cannot be read. -/
  | badQuery (cause : Json.Fault)
  /-- A configuration cannot be read. -/
  | badConfig (cause : Json.Fault)
  /-- A data file cannot be opened. -/
  | dataFile (path : String) (cause : Files.Fault)
  /-- A configuration file cannot be opened. -/
  | configFile (path : String) (cause : Files.Fault)
  /-- Any other file cannot be read or written. -/
  | file (cause : Files.Fault)
deriving DecidableEq, Repr, Inhabited

namespace Fault

/-- The kinds of faults. -/
inductive Kind where
  /-- An entity is missing. -/
  | notFound
  /-- A graph or a version of it is missing. -/
  | graphNotFound
  /-- Bytes are not what they should be. -/
  | serialization
  /-- Two terms share a checksum. -/
  | hashCollision
  /-- A query cannot be planned. -/
  | planning
  /-- A walk failed. -/
  | traversal
  /-- A table is full. -/
  | rowLimit
  /-- A text cannot be read. -/
  | parse
  /-- A configuration cannot be read. -/
  | config
  /-- A file cannot be read or written. -/
  | io
deriving DecidableEq, Repr, Inhabited

/-- The kind of a fault. -/
def kind : Fault → Kind
  | notFound _ => .notFound
  | unknownGraph _ | noVersion _ _ => .graphNotFound
  | badRecord _ | badSnapshot _ => .serialization
  | collision _ _ => .hashCollision
  | noPatterns | noPredicate _ | variableInPath _ | wholeGraph _ | noVariable _ _ => .planning
  | brokenWalk _ _ | strayTarget _ _ => .traversal
  | rowLimit _ => .rowLimit
  | emptySegment _ | notATerm _ | undeclared _ | badQuery _ | dataFile _ _ => .parse
  | badConfig _ | configFile _ _ => .config
  | badDictionary _ | file _ => .io

/-- What messages of a kind start with. -/
def Kind.heading : Kind → String
  | .notFound => "Entity not found"
  | .graphNotFound => "Graph not found"
  | .serialization => "Serialization error"
  | .hashCollision => "Hash collision"
  | .planning => "Planning error"
  | .traversal => "Traversal error"
  | .rowLimit => "Relation row limit"
  | .parse => "Parse error"
  | .config => "Configuration error"
  | .io => "IO error"

/-- A missing entity, which means that there is nothing to find. -/
def isNotFound : Fault → Bool
  | notFound _ => true
  | _ => false

/-- The wording of a fault. -/
def message (f : Fault) : String :=
  let heading := f.kind.heading
  match f with
  | notFound k => heading ++ ": " ++ k.text
  | unknownGraph g => heading ++ ": " ++ g
  | noVersion g t =>
    heading ++ ": " ++ g ++ " has no version at or before " ++ toString t.toNat
  | badRecord c => heading ++ ": entity record: " ++ c.message
  | badSnapshot c | badDictionary c => heading ++ ": " ++ c.message
  | collision known incoming =>
    heading ++ ": " ++ incoming.text ++ " collides with already registered " ++ known.text
  | noPatterns => heading ++ ": query has no terms"
  | noPredicate p => heading ++ ": term '" ++ p ++ "' has no predicate"
  | variableInPath p =>
    heading ++ ": predicate variable in '" ++ p ++ "' must be a single unquantified hop"
  | wholeGraph t =>
    heading ++ ": " ++ t
      ++ " would scan the whole graph; bind one of its variables in an earlier term"
  | noVariable role t => heading ++ ": expected a " ++ role ++ " variable in " ++ t
  | brokenWalk k c => heading ++ ": walking " ++ k.text ++ ": " ++ message c
  | strayTarget s t => heading ++ ": " ++ s.text ++ " reached unknown entity " ++ t.text
  | rowLimit n => heading ++ " of " ++ toString n ++ " exceeded"
  | emptySegment p => heading ++ ": empty segment in path '" ++ p ++ "'"
  | notATerm t => heading ++ ": '" ++ t ++ "' is neither an IRI nor a prefixed name"
  | undeclared n => heading ++ ": undeclared prefix '" ++ n ++ ":'"
  | badQuery c | badConfig c => heading ++ ": " ++ c.message
  | dataFile path c | configFile path c => heading ++ ": " ++ path ++ ": " ++ c.message
  | file c => heading ++ ": " ++ c.message

end Fault

end TripleStore
