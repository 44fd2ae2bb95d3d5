import TripleStore.Decimal
import TripleStore.Json.Reader

/-!
# Numerals

A number in a JSON text is read as it is written, and then its value is found.  A
whole number that fits a machine word has itself as its value.  Any other is a
double, found in two steps.  The leading digits that fit 64 bits are collected
into one number, and later digits only move the point.  That number is then
multiplied or divided by a power of ten, each step rounded.  The result may
differ from the nearest double in the last place.

A number past the largest double has no value.  A reader that only skips a number
does not ask for it.
-/

namespace TripleStore.Json

/-- A number as written. -/
structure Numeral where
  /-- There is a minus sign. -/
  negative : Bool
  /-- The digits before the point. -/
  whole : List Nat
  /-- The digits after the point, if there is one. -/
  fraction : Option (List Nat)
  /-- The exponent, if there is one: negative or not, and its digits. -/
  exponent : Option (Bool × List Nat)
deriving DecidableEq, Repr, Inhabited

/-- A number. -/
inductive Number where
  /-- A whole number below `2 ^ 64`. -/
  | natural (n : Nat)
  /-- The negation of a whole number from 1 to `2 ^ 63`. -/
  | negation (n : Nat)
  /-- A double. -/
  | real (x : Float)

namespace Numeral

/-! ## Digits -/

/-- The value of a digit character. -/
def digit (c : Char) : Nat := c.toNat - '0'.toNat

/-- The number that digits spell, onto the digits read before. -/
def spell (acc : Nat) (ds : List Nat) : Nat := ds.foldl (fun n d => n * 10 + d) acc

/-! ## Values -/

/-- Digits are collected while the number they spell is below this. -/
def wordLimit : Nat := UInt64.size

/-- Exponents from this on are not computed with. -/
def exponentLimit : Nat := UInt32.size / 2

/-- Collect digits while they fit, and return those that do not. -/
def collect (acc : Nat) : List Nat → Nat × List Nat
  | [] => (acc, [])
  | d :: ds => if acc * 10 + d < wordLimit then collect (acc * 10 + d) ds else (acc, d :: ds)

/-- The greatest power of ten that a double holds. -/
def maxPower : Nat := 308

/-- A power of ten. -/
def power (n : Nat) : Float := Float.ofScientific 1 false n

/-- A double times a power of ten, or none if it overflows.  Small powers are
divided out in steps, of which there are at most as many as the first argument. -/
def scaled : Nat → Float → Int → Option Float
  | 0, x, _ => some x
  | steps + 1, x, e =>
    if e.natAbs ≤ maxPower then
      if 0 ≤ e then
        let y := x * power e.natAbs
        if y.isInf then none else some y
      else some (x / power e.natAbs)
    else if x == 0 then some x
    else if 0 ≤ e then none
    else scaled steps (x / power maxPower) (e + maxPower)

/-- A double from its digits and its exponent of ten, if there is one. -/
def real? (negative : Bool) (significand : Nat) (e : Int) : Option Number :=
  (scaled (e.natAbs / maxPower + 1) (UInt64.ofNat significand).toFloat e).map fun x =>
    .real (if negative then -x else x)

/-- The value of a numeral that has a point, an exponent or too many digits. -/
def realValue? (n : Numeral) (significand dropped : Nat) : Option Number :=
  let fs := n.fraction.getD []
  let (significand, unread) := collect significand fs
  let e : Int := dropped - (fs.length - unread.length : Nat)
  match n.exponent with
  | none => real? n.negative significand e
  | some (neg, ds) =>
    let p := spell 0 ds
    if p < exponentLimit then
      let e' : Int := if neg then e - p else e + p
      real? n.negative significand (max (-exponentLimit) (min (exponentLimit - 1) e'))
    else if significand != 0 && !neg then none
    else some (.real (if n.negative then -0.0 else 0.0))

/-- The value of a numeral, if a double holds it. -/
def value? (n : Numeral) : Option Number :=
  let (significand, unread) := collect 0 n.whole
  if unread.isEmpty && n.fraction.isNone && n.exponent.isNone then
    if !n.negative then some (.natural significand)
    else if 0 < significand && significand ≤ UInt64.size / 2 then some (.negation significand)
    else some (.real (-(UInt64.ofNat significand).toFloat))
  else realValue? n significand unread.length

/-- The digits of an exponent after the first that makes it too large. -/
def beyondLimit (acc : Nat) : List Nat → List Nat
  | [] => []
  | d :: ds => if acc * 10 + d < exponentLimit then beyondLimit (acc * 10 + d) ds else ds

/-- The number of characters of a numeral after the one that puts it out of range.
An exponent is given up at the first digit that makes it too large. -/
def excess (n : Numeral) : Nat :=
  match n.exponent with
  | some (_, ds) => (beyondLimit 0 ds).length
  | none => 0

/-- Doubles in messages have no exponent while the point is at most four zeros
before the first digit and at most sixteen digits after it. -/
def layout : Decimal.Layout := ⟨-4, 16⟩

end Numeral

/-- A number as messages name it. -/
def Number.describe : Number → String
  | .natural n => "integer " ++ backquoted (toString n)
  | .negation n => "integer " ++ backquoted ("-" ++ toString n)
  | .real x => "floating point " ++ backquoted (Decimal.renderFloat Numeral.layout x)

/-! ## Reading -/

namespace Reader

/-- The digits that come next. -/
def digits : Reader (List Nat) := do
  let i ← getThe Input
  let ds := i.rest.takeWhile Char.isDigit
  set (⟨i.rest.dropWhile Char.isDigit, i.offset + ds.length⟩ : Input)
  return ds.map Numeral.digit

/-- Digits, of which there has to be one.  `atEnd` is the fault of a text that
ends here. -/
def someDigits (atEnd : Cause) : Reader (List Nat) := do
  match ← peek with
  | none => stopHere atEnd
  | some c => if c.isDigit then digits else stopAhead .badNumber

/-- The digits before the point.  A zero is followed by no other digit. -/
def wholeDigits (atEnd : Cause) : Reader (List Nat) := do
  if (← peek) = some '0' then
    advance
    match ← peek with
    | some c => if c.isDigit then stopAhead .badNumber else return [0]
    | none => return [0]
  else someDigits atEnd

/-- The digits after the point, if there is one. -/
def fraction (atEnd : Cause) : Reader (Option (List Nat)) := do
  if (← peek) = some '.' then
    advance
    return some (← someDigits atEnd)
  else return none

/-- The sign of an exponent, and whether it is negative. -/
def exponentSign : Reader Bool := do
  match ← peek with
  | some '+' =>
    advance
    return false
  | some '-' =>
    advance
    return true
  | _ => return false

/-- The exponent, if there is one. -/
def exponent (atEnd : Cause) : Reader (Option (Bool × List Nat)) := do
  let c ← peek
  if c = some 'e' || c = some 'E' then
    advance
    let negative ← exponentSign
    return some (negative, ← someDigits atEnd)
  else return none

/-- A number as written.  A text that ends inside it has the fault `atEnd`. -/
def numeral (atEnd : Cause) : Reader Numeral := do
  let negative := (← peek) = some '-'
  if negative then advance
  let whole ← wholeDigits atEnd
  let fraction ← fraction atEnd
  let exponent ← exponent atEnd
  return ⟨negative, whole, fraction, exponent⟩

/-- A number. -/
def number : Reader Number := do
  let n ← numeral .endInValue
  match n.value? with
  | some x => return x
  | none => stopAt .outOfRange ((← getThe Input).offset - n.excess)

/-- Move past a number, whatever its value. -/
def skipNumber : Reader Unit := do
  let _ ← numeral .badNumber

/-- A character that starts a number. -/
def startsNumber (c : Char) : Bool := c = '-' || c.isDigit

end Reader

end TripleStore.Json
