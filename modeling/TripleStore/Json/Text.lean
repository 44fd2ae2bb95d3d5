import TripleStore.Json.Reader

/-!
# Quoted texts

A quoted text may escape a character by its 16-bit units, each of four
hexadecimal digits.  Two units that form a surrogate pair are one character.
Half a pair stands for no character, so no text can be read that has one.

A reader that only skips a text does not put units together, and lets half a
pair pass.
-/

namespace TripleStore.Json.Reader

/-! ## Escapes -/

/-- The value of a hexadecimal digit. -/
def hexDigit? (c : Char) : Option Nat :=
  if '0' ≤ c && c ≤ '9' then some (c.toNat - '0'.toNat)
  else if 'a' ≤ c && c ≤ 'f' then some (c.toNat - 'a'.toNat + 10)
  else if 'A' ≤ c && c ≤ 'F' then some (c.toNat - 'A'.toNat + 10)
  else none

/-- The number that four hexadecimal digits spell. -/
def hexQuad? (a b c d : Char) : Option Nat := do
  return (((← hexDigit? a) * 16 + (← hexDigit? b)) * 16 + (← hexDigit? c)) * 16 + (← hexDigit? d)

/-- The number of bytes of characters. -/
def bytesOf (cs : List Char) : Nat := (String.ofList cs).utf8ByteSize

/-- A 16-bit unit.  It takes the next four bytes, whatever they are. -/
def unit : Reader Nat := do
  let i ← getThe Input
  match i.rest with
  | a :: b :: c :: d :: rest =>
    match hexQuad? a b c d with
    | some n =>
      set (⟨rest, i.offset + 4⟩ : Input)
      return n
    | none => stopAt .badEscape (i.offset + 4)
  | few =>
    if bytesOf few < 4 then stopAt .endInText (i.offset + bytesOf few)
    else stopAt .badEscape (i.offset + 4)

/-- The character that a backslash and a letter stand for. -/
def escaped? : Char → Option Char
  | '"' => some '"'
  | '\\' => some '\\'
  | '/' => some '/'
  | 'b' => some '\x08'
  | 'f' => some '\x0c'
  | 'n' => some '\n'
  | 'r' => some '\r'
  | 't' => some '\t'
  | _ => none

/-- A leading half of a surrogate pair. -/
def isLeading (n : Nat) : Bool := 0xD800 ≤ n && n ≤ 0xDBFF

/-- A trailing half of a surrogate pair. -/
def isTrailing (n : Nat) : Bool := 0xDC00 ≤ n && n ≤ 0xDFFF

/-- The character of a surrogate pair. -/
def ofPair (leading trailing : Nat) : Char :=
  Char.ofNat (0x10000 + (leading - 0xD800) * 0x400 + (trailing - 0xDC00))

/-- One character of an escape that goes on, inside a surrogate pair. -/
def pairPart (c : Char) : Reader Unit := do
  match ← peek with
  | none => stopHere .endInText
  | some d => if d = c then advance else stopAhead .brokenPair

/-- The character of one unit or two, after the backslash and the letter of the
first. -/
def unitEscape : Reader Char := do
  let m ← unit
  if isTrailing m then stopHere .halfPair
  else if isLeading m then
    pairPart '\\'
    pairPart 'u'
    let n ← unit
    if isTrailing n then return ofPair m n else stopHere .halfPair
  else return Char.ofNat m

/-- The character of an escape, after its backslash. -/
def escape : Reader Char := do
  match ← peek with
  | none => stopHere .endInText
  | some 'u' =>
    advance
    unitEscape
  | some c =>
    match escaped? c with
    | none => stopAhead .badEscape
    | some e =>
      advance
      return e

/-! ## Texts -/

/-- One step through a quoted text: an escape, a character, or the end. -/
def textStep (done : List Char) : Reader (List Char ⊕ String) := do
  match ← peek with
  | none => stopHere .endInText
  | some '"' =>
    advance
    return .inr (String.ofList done.reverse)
  | some '\\' =>
    advance
    return .inl ((← escape) :: done)
  | some c =>
    if c.toNat < 0x20 then stopAhead .controlCharacter
    else
      advance
      return .inl (c :: done)

/-- A quoted text after its opening quote. -/
def text : Reader String := repeated textStep []

/-! ## Skipping -/

/-- Move past an escape, after its backslash. -/
def skipEscape : Reader Unit := do
  match ← peek with
  | none => stopHere .endInText
  | some 'u' =>
    advance
    let _ ← unit
  | some c => if (escaped? c).isSome then advance else stopAhead .badEscape

/-- One step past a quoted text. -/
def skipTextStep (_ : Unit) : Reader (Unit ⊕ Unit) := do
  match ← peek with
  | none => stopHere .endInText
  | some '"' =>
    advance
    return .inr ()
  | some '\\' =>
    advance
    skipEscape
    return .inl ()
  | some c =>
    if c.toNat < 0x20 then stopHere .controlCharacter
    else
      advance
      return .inl ()

/-- Move past a quoted text, after its opening quote. -/
def skipText : Reader Unit := repeated skipTextStep ()

end TripleStore.Json.Reader
