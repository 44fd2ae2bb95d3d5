/-!
# Faults of JSON texts

Why a text is not a JSON value, or not one of the shape asked for, and the place
where that shows.

A place is a line and a column.  Lines are counted from one, and the column is
the number of bytes of the line that were read, so a fault found in the first
character of a text is at column one.
-/

namespace TripleStore.Json

/-! ## Causes -/

/-- Why a text is not a value of the shape asked for. -/
inductive Cause where
  /-- The text ends where a value is due. -/
  | endInValue
  /-- The text ends inside an array. -/
  | endInArray
  /-- The text ends inside an object. -/
  | endInObject
  /-- The text ends inside a quoted text. -/
  | endInText
  /-- No value starts here. -/
  | notAValue
  /-- A letter belongs to no word. -/
  | badWord
  /-- A number is not written as one. -/
  | badNumber
  /-- A number is past the largest double. -/
  | outOfRange
  /-- A backslash and what follows it stand for nothing. -/
  | badEscape
  /-- A half of a surrogate pair stands where it means nothing. -/
  | halfPair
  /-- The first half of a surrogate pair is followed by no escape. -/
  | brokenPair
  /-- A control character stands in a quoted text. -/
  | controlCharacter
  /-- The name of a field is due. -/
  | nameDue
  /-- The colon after a name is due. -/
  | colonDue
  /-- A comma or the end of the array is due. -/
  | itemEnd
  /-- A comma or the end of the object is due. -/
  | fieldEnd
  /-- A comma stands before the end of an array or object. -/
  | trailingComma
  /-- There is more than was asked for. -/
  | trailing
  /-- Too many arrays and objects are open at once. -/
  | tooDeep
  /-- A value of one kind stands where another is expected. -/
  | kind (found expected : String)
  /-- A value of the right kind is out of range. -/
  | range (found expected : String)
  /-- An array has too few items. -/
  | length (found : Nat) (expected : String)
  /-- A field is not given. -/
  | missingField (name : String)
  /-- A field is given twice. -/
  | duplicateField (name : String)
  /-- A value has the right shape and is refused for a reason of its own. -/
  | refused (reason : String)
deriving DecidableEq, Repr, Inhabited

/-- A text between backquotes. -/
def backquoted (s : String) : String := "\x60" ++ s ++ "\x60"

/-- The wording of a cause. -/
def Cause.message : Cause → String
  | .endInValue => "EOF while parsing a value"
  | .endInArray => "EOF while parsing a list"
  | .endInObject => "EOF while parsing an object"
  | .endInText => "EOF while parsing a string"
  | .notAValue => "expected value"
  | .badWord => "expected ident"
  | .badNumber => "invalid number"
  | .outOfRange => "number out of range"
  | .badEscape => "invalid escape"
  | .halfPair => "lone leading surrogate in hex escape"
  | .brokenPair => "unexpected end of hex escape"
  | .controlCharacter => "control character (\\u0000-\\u001F) found while parsing a string"
  | .nameDue => "key must be a string"
  | .colonDue => "expected " ++ backquoted ":"
  | .itemEnd => "expected " ++ backquoted "," ++ " or " ++ backquoted "]"
  | .fieldEnd => "expected " ++ backquoted "," ++ " or " ++ backquoted "\x7d"
  | .trailingComma => "trailing comma"
  | .trailing => "trailing characters"
  | .tooDeep => "recursion limit exceeded"
  | .kind found expected => "invalid type: " ++ found ++ ", expected " ++ expected
  | .range found expected => "invalid value: " ++ found ++ ", expected " ++ expected
  | .length n expected => "invalid length " ++ toString n ++ ", expected " ++ expected
  | .missingField name => "missing field " ++ backquoted name
  | .duplicateField name => "duplicate field " ++ backquoted name
  | .refused reason => reason

/-! ## Places -/

/-- A place in a text. -/
structure Place where
  /-- The line. -/
  line : Nat
  /-- The number of bytes of the line before the place. -/
  column : Nat
deriving DecidableEq, Repr, Inhabited

namespace Place

/-- The start of a text. -/
def start : Place := ⟨1, 0⟩

/-- The place that many bytes past a place, given the text after it.  Only line
ends that are passed start a new line. -/
def advance (p : Place) : List Char → Nat → Place
  | [], n => ⟨p.line, p.column + n⟩
  | c :: cs, n =>
    if n < c.utf8Size then ⟨p.line, p.column + n⟩
    else if c = '\n' then advance ⟨p.line + 1, 0⟩ cs (n - c.utf8Size)
    else advance ⟨p.line, p.column + c.utf8Size⟩ cs (n - c.utf8Size)

/-- The place after a number of bytes of a text. -/
def ofOffset (text : String) (n : Nat) : Place := start.advance text.toList n

/-- A place as messages end with it. -/
def message (p : Place) : String :=
  " at line " ++ toString p.line ++ " column " ++ toString p.column

example : ofOffset "a\nbc" 2 = ⟨2, 0⟩ := by decide
example : ofOffset "a\nbc" 4 = ⟨2, 2⟩ := by decide

end Place

/-! ## Faults -/

/-- What is wrong with a text, and where, if that is known. -/
structure Fault where
  /-- What is wrong. -/
  cause : Cause
  /-- Where it shows. -/
  place : Option Place
deriving DecidableEq, Repr, Inhabited

/-- The wording of a fault. -/
def Fault.message (f : Fault) : String :=
  f.cause.message ++ match f.place with
    | some p => p.message
    | none => ""

end TripleStore.Json
