import TripleStore.Json.Numeral
import TripleStore.Json.Text

/-!
# Values nobody asks for

A value that nobody asks for is skipped.  It has to be written as a value is.
But its texts may hold half a surrogate pair, its numbers may be past any double,
and it may be of any depth, as its open arrays and objects are kept on a stack.
-/

namespace TripleStore.Json

/-- What is open around a value. -/
inductive Bracket where
  /-- An array. -/
  | array
  /-- An object. -/
  | object
deriving DecidableEq, Repr, Inhabited

namespace Bracket

/-- The character that closes a bracket. -/
def closing : Bracket → Char
  | .array => ']'
  | .object => '\x7d'

/-- The fault of a text that ends inside a bracket. -/
def atEnd : Bracket → Cause
  | .array => .endInArray
  | .object => .endInObject

/-- The fault of a value in a bracket that is followed by something else. -/
def afterValue : Bracket → Cause
  | .array => .itemEnd
  | .object => .fieldEnd

end Bracket

/-- How far the skipping of a value got.  `outer` are the brackets around the
innermost one, innermost first. -/
inductive Skipping where
  /-- A value is due inside brackets, innermost first. -/
  | value (brackets : List Bracket)
  /-- A bracket was opened just now. -/
  | opened (bracket : Bracket) (outer : List Bracket)
  /-- A value inside a bracket was skipped. -/
  | done (bracket : Bracket) (outer : List Bracket)

namespace Reader

/-- The colon after a name. -/
def colon : Reader Unit := do
  match ← afterSpaces with
  | none => stopHere .endInObject
  | some c => if c = ':' then advance else stopAhead .colonDue

/-- Move past a value without parts, or past the character that opens one with
parts. -/
def skipStart : Reader (Option Bracket) := do
  let c ← valueAhead
  match c with
  | '[' => do
    advance
    return some .array
  | '\x7b' => do
    advance
    return some .object
  | 'n' => do
    advance
    restOfNull
  | 't' => do
    advance
    restOfTrue
  | 'f' => do
    advance
    restOfFalse
  | '"' => do
    advance
    skipText
  | c => if startsNumber c then skipNumber else stopAhead .notAValue
  return none

/-- Move past what stands before a value in a bracket: in an object, a name and a
colon. -/
def skipName : Bracket → Reader Unit
  | .array => return
  | .object => do
    match ← afterSpaces with
    | none => stopHere .endInObject
    | some c => if c = '"' then advance else stopAhead .nameDue
    skipText
    colon

/-- What is to be done after a value inside brackets. -/
def afterSkipped : List Bracket → Skipping ⊕ Unit
  | [] => .inr ()
  | b :: outer => .inl (.done b outer)

/-- One step past a value. -/
def skipStep : Skipping → Reader (Skipping ⊕ Unit)
  | .value brackets => do
    match ← skipStart with
    | some b => return .inl (.opened b brackets)
    | none => return afterSkipped brackets
  | .opened b outer => do
    match ← afterSpaces with
    | none => stopHere b.atEnd
    | some c =>
      if c = b.closing then
        advance
        return afterSkipped outer
      else
        skipName b
        return .inl (.value (b :: outer))
  | .done b outer => do
    match ← afterSpaces with
    | none => stopHere b.atEnd
    | some c =>
      if c = ',' then
        advance
        skipName b
        return .inl (.value (b :: outer))
      else if c = b.closing then
        advance
        return afterSkipped outer
      else stopAhead b.afterValue

/-- Move past a value. -/
def skip : Reader Unit := repeated skipStep (.value [])

end Reader

end TripleStore.Json
