import TripleStore.Json.Skip
import TripleStore.Text.Quoted

/-!
# Shapes of values

A configuration or a query is a JSON value of a certain shape.  Its reader goes
through the text once, in order, and stops at the first thing that does not fit.
What stands behind that is not looked at, so a text that is no JSON at its end
may well have a fault of shape.

Fields a shape does not name are skipped.  A record may also be written as the
array of its fields.
-/

namespace TripleStore.Json.Reader

/-! ## Values of another kind -/

/-- The value that is due is not of the expected kind.  It is read as far as it
takes to name it. -/
def mismatch {α : Type} (expected : String) : Reader α := do
  let found (what : String) : Reader α := stop (.kind what expected)
  match ← valueAhead with
  | 'n' => do
    advance
    restOfNull
    found "null"
  | 't' => do
    advance
    restOfTrue
    found ("boolean " ++ backquoted "true")
  | 'f' => do
    advance
    restOfFalse
    found ("boolean " ++ backquoted "false")
  | '"' => do
    advance
    found ("string " ++ Text.Quoted.encode (← text))
  | '[' => found "sequence"
  | '\x7b' => found "map"
  | c => if startsNumber c then found (← number).describe else stopAhead .notAValue

/-! ## Simple values -/

/-- A text, named `expected` in messages. -/
def textAs (expected : String) : Reader String := placed do
  if (← valueAhead) = '"' then
    advance
    text
  else mismatch expected

/-- A text. -/
def anyText : Reader String := textAs "a string"

/-- The name of a file. -/
def path : Reader String := textAs "path string"

/-- The name of a whole number of 64 bits in messages. -/
def wordName : String := "u64"

/-- A whole number of 64 bits. -/
def word64 : Reader UInt64 := placed do
  if startsNumber (← valueAhead) then
    match ← number with
    | .natural n => return UInt64.ofNat n
    | .negation n => stop (.range (Number.negation n).describe wordName)
    | .real x => stop (.kind (Number.real x).describe wordName)
  else mismatch wordName

/-- A value that may be `null`. -/
def orNull {α : Type} (value : Reader α) : Reader (Option α) := do
  if (← afterSpaces) = some 'n' then
    advance
    restOfNull
    return none
  else return some (← value)

/-! ## Sequences -/

/-- An array, named `expected` in messages, whose items are read by `body`. -/
def array {α : Type} (expected : String) (body : Reader α) : Reader α := placed do
  if (← valueAhead) = '[' then
    advance
    within body endArray
  else mismatch expected

/-- A sequence. -/
def list {α : Type} (item : Reader α) : Reader (List α) := array "a sequence" (items item)

/-- A sequence of three values. -/
def triple {α : Type} (value : Reader α) : Reader (α × α × α) :=
  let expected := "an array of length 3"
  let item (n : Nat) : Reader α := do
    if ← nextItem (n = 0) then value else stop (.length n expected)
  array expected do
    let a ← item 0
    let b ← item 1
    let c ← item 2
    return (a, b, c)

/-! ## Objects -/

/-- The name of the next field, if there is one.  No comma stands before the
first. -/
def nextName (first : Bool) : Reader (Option String) := do
  let name : Reader (Option String) := do
    advance
    return some (← text)
  match ← afterSpaces with
  | none => stopHere .endInObject
  | some c =>
    if c = '\x7d' then return none
    else if first then
      if c = '"' then name else stopAhead .nameDue
    else if c = ',' then
      advance
      match ← afterSpaces with
      | none => stopHere .endInValue
      | some '"' => name
      | some '\x7d' => stopAhead .trailingComma
      | some _ => stopAhead .nameDue
    else stopAhead .fieldEnd

/-- The end of an object. -/
def endObject : Reader Unit := do
  match ← afterSpaces with
  | none => stopHere .endInObject
  | some '\x7d' => advance
  | some ',' => stopAhead .trailingComma
  | some _ => stopAhead .trailing

/-- The value of a field whose name was read. -/
def valueOf {α : Type} (value : Reader α) : Reader α := do
  colon
  value

/-- The fields of an object up to its end.  Each is read by the step from its name
on, which changes what the fields before it amount to. -/
def fields {σ : Type} (step : σ → String → Reader σ) (s : σ) : Reader σ :=
  repeated (fun (p : Bool × σ) => do
    match ← nextName p.1 with
    | none => return .inr p.2
    | some name => return .inl (false, ← step p.2 name)) (true, s)

/-- A map from names to values, in the order of the text. -/
def map {α : Type} (value : Reader α) : Reader (List (String × α)) := placed do
  if (← valueAhead) = '\x7b' then
    advance
    within (List.reverse <$> fields (fun done name => return (name, ← valueOf value) :: done) [])
      endObject
  else mismatch "a map"

/-! ## Records -/

/-- A record, named `expected` in messages: the array of its fields, read by
`body`, or an object, whose fields are read by `named`. -/
def record {α : Type} (expected : String) (body named : Reader α) : Reader α := placed do
  match ← valueAhead with
  | '[' => do
    advance
    within body endArray
  | '\x7b' => do
    advance
    within named endObject
  | _ => mismatch expected

/-- Fill a field that is given for the first time. -/
def fill {α : Type} (name : String) (slot : Option α) (value : Reader α) : Reader (Option α) :=
  if slot.isSome then stop (.duplicateField name) else return some (← valueOf value)

/-- A field that has to be given. -/
def required {α : Type} (name : String) (slot : Option α) : Reader α :=
  match slot with
  | some a => return a
  | none => stop (.missingField name)

/-- A field of a record written as an array, if it is there. -/
def itemOf {α : Type} (first : Bool) (value : Reader α) : Reader (Option α) := do
  if ← nextItem first then return some (← value) else return none

/-! ## Texts -/

/-- A value with nothing but white space after it. -/
def whole {α : Type} (value : Reader α) : Reader α := do
  let a ← value
  if (← afterSpaces).isSome then stopAhead .trailing
  return a

/-- Read a text of a shape. -/
def ofText {α : Type} (shape : Reader α) (text : String) : Except Fault α :=
  match ((whole shape).run ⟨text.toList, 0⟩).1 with
  | .ok a => .ok a
  | .error s => .error ⟨s.cause, s.offset.map (Place.ofOffset text)⟩

/-! ## Any value -/

/-- A value inside which at most so many arrays and objects may be open at once. -/
def value : Nat → Reader Unit
  | 0 => do
    let c ← valueAhead
    if c = '[' || c = '\x7b' then stopAhead .tooDeep else leaf c
  | n + 1 => do
    match ← valueAhead with
    | '[' => do
      advance
      within (do let _ ← items (value n)) endArray
    | '\x7b' => do
      advance
      within (fields (fun _ _ => valueOf (value n)) ()) endObject
    | c => leaf c
where
  /-- A value without parts that starts with a character. -/
  leaf : Char → Reader Unit
    | 'n' => do
      advance
      restOfNull
    | 't' => do
      advance
      restOfTrue
    | 'f' => do
      advance
      restOfFalse
    | '"' => do
      advance
      let _ ← text
    | c => do
      if startsNumber c then
        let _ ← number
      else stopAhead .notAValue

/-- The most arrays and objects that may be open at once. -/
def maxDepth : Nat := 127

end Reader

/-- Decide whether a text is a value whose texts and numbers can all be read. -/
def isWellFormed (text : String) : Bool :=
  ((Reader.value Reader.maxDepth).ofText text).isOk

end TripleStore.Json
