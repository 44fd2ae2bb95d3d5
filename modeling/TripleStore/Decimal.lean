/-!
# Shortest decimals

A binary number is written with the fewest decimal digits that identify it.  The
reals that round to it form an interval, whose ends belong to it when its
mantissa is even.  For one digit, two digits and so on, up to the seventeen that
always suffice, the two decimals around the number are tested, and the first
that lies in the interval is taken, the nearer of two.

All comparisons are exact, on natural numbers.  A `Layout` says where the point goes.
-/

namespace TripleStore

/-! ## Numbers of both bases -/

/-- The number `mantissa * 2 ^ exponent`. -/
structure Binary64 where
  /-- The mantissa. -/
  mantissa : Nat
  /-- The exponent of two. -/
  exponent : Int
  /-- The next smaller number is nearer than the next larger one. -/
  narrow : Bool
deriving DecidableEq, Repr, Inhabited

/-- The number `digits * 10 ^ exponent`. -/
structure Decimal where
  /-- The digits, as a number. -/
  digits : Nat
  /-- The exponent of ten. -/
  exponent : Int
deriving DecidableEq, Repr, Inhabited

/-- The magnitude of a finite double with the given bits. -/
def Binary64.ofBits (bits : UInt64) : Binary64 :=
  let e := ((bits >>> 52) &&& 0x7FF).toNat
  let f := (bits &&& 0xFFFFFFFFFFFFF).toNat
  if e = 0 then ⟨f, -1074, false⟩ else ⟨(1 <<< 52) + f, (e : Int) - 1075, f == 0 && 1 < e⟩

namespace Decimal

/-- Compare `a * 10 ^ i` with `n * 2 ^ j`. -/
def compareScaled (a : Nat) (i : Int) (n : Nat) (j : Int) : Ordering :=
  compare ((a * Nat.pow 10 i.toNat) <<< (-j).toNat) ((n * Nat.pow 10 (-i).toNat) <<< j.toNat)

/-- Decide whether a decimal is among the reals that round to `x`. -/
def identifies (x : Binary64) (d : Decimal) : Bool :=
  let low := compareScaled d.digits d.exponent
    (if x.narrow then 4 * x.mantissa - 1 else 4 * x.mantissa - 2) (x.exponent - 2)
  let high := compareScaled d.digits d.exponent (4 * x.mantissa + 2) (x.exponent - 2)
  if x.mantissa % 2 = 0 then low != .lt && high != .gt else low == .gt && high == .lt

/-- The largest multiple of `10 ^ g` up to `x`, divided by `10 ^ g`. -/
def below (x : Binary64) (g : Int) : Nat :=
  ((x.mantissa * Nat.pow 10 (-g).toNat) <<< x.exponent.toNat)
    / (Nat.pow 10 g.toNat <<< (-x.exponent).toNat)

/-- The least `k` with `x < 10 ^ k`, found among the candidates near the binary logarithm. -/
def scale (x : Binary64) : Int :=
  let guess := ((x.mantissa.log2 : Int) + x.exponent) * 30103 / 100000
  (([guess - 1, guess, guess + 1] : List Int).find? fun k =>
    compareScaled 1 k x.mantissa x.exponent == .gt).getD (guess + 2)

/-- The decimal on the grid of `10 ^ g` that identifies `x`: of two the nearer, of
two equally near the even one. -/
def onGrid? (x : Binary64) (g : Int) : Option Decimal :=
  let d : Decimal := ⟨below x g, g⟩
  let u : Decimal := ⟨below x g + 1, g⟩
  match identifies x d, identifies x u with
  | false, false => none
  | true, false => some d
  | false, true => some u
  | true, true =>
    match compareScaled (2 * d.digits + 1) g (2 * x.mantissa) x.exponent with
    | .gt => some d
    | .lt => some u
    | .eq => some (if d.digits % 2 = 0 then d else u)

/-- A decimal without the zeros its digits end in. -/
def strip : Nat → Decimal → Decimal
  | 0, d => d
  | n + 1, d =>
    if d.digits % 10 = 0 && 0 < d.digits then strip n ⟨d.digits / 10, d.exponent + 1⟩ else d

/-- The most digits a double needs. -/
def maxDigits : Nat := 17

/-- The shortest decimal that identifies a number other than zero. -/
def shortest (x : Binary64) : Decimal :=
  let k := scale x
  strip maxDigits
    (((List.range maxDigits).findSome? fun n => onGrid? x (k - (n + 1 : Nat))).getD
      ⟨below x (k - maxDigits), k - maxDigits⟩)

/-! ## Layout -/

/-- How a decimal is laid out. -/
structure Layout where
  /-- Least position of the point that is written without an exponent. -/
  least : Int
  /-- Greatest position of the point that is written without an exponent. -/
  greatest : Int
deriving DecidableEq, Repr

/-- A number of zeros. -/
def zeros (n : Nat) : String := String.ofList (List.replicate n '0')

/-- An exponent of ten as text, with its sign. -/
def renderExponent (e : Int) : String := "e" ++ (if e < 0 then "-" else "+") ++ toString e.natAbs

/-- A decimal as text.  The point stands after as many digits as its position
says.  A whole number keeps `.0`, and an exponent always has a sign. -/
def render (layout : Layout) (d : Decimal) : String :=
  let ds := toString d.digits
  let point := ds.length + d.exponent
  if 0 ≤ d.exponent && point ≤ layout.greatest then ds ++ zeros d.exponent.toNat ++ ".0"
  else if 0 < point && point ≤ layout.greatest then
    (ds.take point.toNat).toString ++ "." ++ (ds.drop point.toNat).toString
  else if layout.least ≤ point && point ≤ 0 then "0." ++ zeros (-point).toNat ++ ds
  else if ds.length = 1 then ds ++ renderExponent (point - 1)
  else (ds.take 1).toString ++ "." ++ (ds.drop 1).toString ++ renderExponent (point - 1)

/-- A finite double as text. -/
def renderFloat (layout : Layout) (x : Float) : String :=
  let bits := x.toBits
  let sign := if bits >>> 63 == 1 then "-" else ""
  let b := Binary64.ofBits bits
  sign ++ if b.mantissa = 0 then "0.0" else render layout (shortest b)

end Decimal

end TripleStore
