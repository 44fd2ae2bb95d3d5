import TripleStore.Json.Fault

/-!
# Readers

A reader takes a JSON text from the front.  It moves through the text also when
it stops, because the place of a fault may depend on how far it got.

Most faults are placed when they are met, either after what was read or after
the first byte that was not read.  A fault of the shape of a value says only
what is wrong.  It is placed by the array, object or other value it was met in,
once that is left (`placed`, `within`).

White space is the space, the tab and the two line ends, and no other character.
-/

namespace TripleStore.Json

/-- What is left of a text. -/
structure Input where
  /-- The characters that are left. -/
  rest : List Char
  /-- The number of bytes that were read. -/
  offset : Nat
deriving DecidableEq, Repr, Inhabited

/-- Why a reader stops, and after how many bytes, if that is known. -/
structure Stop where
  /-- What is wrong. -/
  cause : Cause
  /-- The number of bytes before the place of the fault. -/
  offset : Option Nat
deriving DecidableEq, Repr, Inhabited

/-- A value taken from the front of a text, or a reason to stop. -/
abbrev Reader := ExceptT Stop (StateM Input)

namespace Reader

/-! ## Stopping -/

/-- Stop at a place that is not known yet. -/
def stop {α : Type} (cause : Cause) : Reader α := throw ⟨cause, none⟩

/-- Stop after so many bytes of the text. -/
def stopAt {α : Type} (cause : Cause) (offset : Nat) : Reader α := throw ⟨cause, some offset⟩

/-- Stop after what was read. -/
def stopHere {α : Type} (cause : Cause) : Reader α := do
  stopAt cause (← getThe Input).offset

/-- Stop after the first byte that was not read, if there is one. -/
def stopAhead {α : Type} (cause : Cause) : Reader α := do
  let i ← getThe Input
  stopAt cause (if i.rest.isEmpty then i.offset else i.offset + 1)

/-- A fault without a place is at the place the reader got to. -/
def placed {α : Type} (r : Reader α) : Reader α := fun i =>
  match r.run i with
  | (.error ⟨cause, none⟩, i) => (.error ⟨cause, some i.offset⟩, i)
  | done => done

/-- Read a value and the end of what it is in.  The end is read also after a
fault, which then counts. -/
def within {α : Type} (r : Reader α) (close : Reader Unit) : Reader α := fun i =>
  match r.run i with
  | (.ok a, i) => (close.run i).map (fun c => c.map fun _ => a) id
  | (.error e, i) => (.error e, (close.run i).2)

/-! ## Characters -/

/-- The next character, if there is one. -/
def peek : Reader (Option Char) := do
  return (← getThe Input).rest.head?

/-- Move past the next character. -/
def advance : Reader Unit :=
  modifyThe Input fun i =>
    match i.rest with
    | c :: cs => ⟨cs, i.offset + c.utf8Size⟩
    | [] => i

/-- White space between the parts of a text. -/
def isSpace (c : Char) : Bool := c = ' ' || c = '\n' || c = '\t' || c = '\r'

/-- Move past white space. -/
def skipSpaces : Reader Unit :=
  modifyThe Input fun i =>
    ⟨i.rest.dropWhile isSpace, i.offset + (i.rest.takeWhile isSpace).length⟩

/-- The next character after white space, if there is one. -/
def afterSpaces : Reader (Option Char) := do
  skipSpaces
  peek

/-- The first character of the value that is due. -/
def valueAhead : Reader Char := do
  match ← afterSpaces with
  | some c => return c
  | none => stopHere .endInValue

/-- The rest of a word whose first letter was read. -/
def word : List Char → Reader Unit
  | [] => return
  | w :: ws => do
    match ← peek with
    | none => stopHere .endInValue
    | some c => if c = w then do advance; word ws else stopAhead .badWord

/-- The word `null` after its first letter. -/
def restOfNull : Reader Unit := word ['u', 'l', 'l']

/-- The word `true` after its first letter. -/
def restOfTrue : Reader Unit := word ['r', 'u', 'e']

/-- The word `false` after its first letter. -/
def restOfFalse : Reader Unit := word ['a', 'l', 's', 'e']

/-! ## Repeating -/

/-- Repeat a step until it gives a result, at most so many times. -/
def loop {σ α : Type} (step : σ → Reader (σ ⊕ α)) : Nat → σ → Reader α
  | 0, _ => stopHere .endInValue
  | n + 1, s => do
    match ← step s with
    | .inl s => loop step n s
    | .inr a => return a

/-- Repeat a step until it gives a result.  Of two steps in a row one has to take
a character, so the number of characters left bounds the number of steps. -/
def repeated {σ α : Type} (step : σ → Reader (σ ⊕ α)) (s : σ) : Reader α := do
  loop step (2 * (← getThe Input).rest.length + 2) s

/-! ## Arrays -/

/-- Go to the next item of an array, if there is one.  No comma stands before the
first. -/
def nextItem (first : Bool) : Reader Bool := do
  match ← afterSpaces with
  | none => stopHere .endInArray
  | some ']' => return false
  | some c =>
    if first then return true
    else if c = ',' then
      advance
      match ← afterSpaces with
      | none => stopHere .endInValue
      | some ']' => stopAhead .trailingComma
      | some _ => return true
    else stopAhead .itemEnd

/-- The end of an array. -/
def endArray : Reader Unit := do
  match ← afterSpaces with
  | none => stopHere .endInArray
  | some ']' => advance
  | some ',' =>
    advance
    match ← afterSpaces with
    | some ']' => stopAhead .trailingComma
    | _ => stopAhead .trailing
  | some _ => stopAhead .trailing

/-- The items of an array up to its end. -/
def items {α : Type} (item : Reader α) : Reader (List α) :=
  repeated (fun done => do
    if ← nextItem done.isEmpty then return .inl ((← item) :: done)
    else return .inr done.reverse) []

end Reader

end TripleStore.Json
