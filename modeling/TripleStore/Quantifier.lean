/-!
# Quantifiers

A segment of a path says how many hops over its predicate it stands for.  The
same tag is kept on stored edges: `single` on an edge that was loaded, `onePlus`
on an edge added for a walk of one or more hops.

`ofSuffix?_suffix` says that the written forms are read back.
-/

namespace TripleStore

/-- How many hops a segment of a path stands for. -/
inductive Quantifier where
  /-- Exactly one hop. -/
  | single
  /-- No hop or one, written `?`. -/
  | zeroOne
  /-- One hop or more, written `+`. -/
  | onePlus
  /-- Any number of hops, written `*`. -/
  | zeroPlus
deriving DecidableEq, Repr, Inhabited

namespace Quantifier

/-- The mark after a predicate, empty for a single hop. -/
def suffix : Quantifier → String
  | single => ""
  | zeroOne => "?"
  | onePlus => "+"
  | zeroPlus => "*"

/-- The quantifier a mark stands for. -/
def ofSuffix? : String → Option Quantifier
  | "" => some single
  | "?" => some zeroOne
  | "+" => some onePlus
  | "*" => some zeroPlus
  | _ => none

/-- The quantifier a mark of one character stands for. -/
def ofMark? : Char → Option Quantifier
  | '?' => some zeroOne
  | '+' => some onePlus
  | '*' => some zeroPlus
  | _ => none

theorem ofSuffix?_suffix (q : Quantifier) : ofSuffix? q.suffix = some q := by
  cases q <;> rfl

/-- No hop at all is among the walks of the segment. -/
def allowsNoHop : Quantifier → Bool
  | single | onePlus => false
  | zeroOne | zeroPlus => true

/-! ## Order and number -/

/-- The number of a quantifier in records, which also orders edges. -/
def toNat : Quantifier → Nat
  | single => 0
  | zeroOne => 1
  | onePlus => 2
  | zeroPlus => 3

/-- The quantifier with a number. -/
def ofNat? : Nat → Option Quantifier
  | 0 => some single
  | 1 => some zeroOne
  | 2 => some onePlus
  | 3 => some zeroPlus
  | _ => none

/-- The number of quantifiers. -/
def count : Nat := 4

theorem ofNat?_toNat (q : Quantifier) : ofNat? q.toNat = some q := by
  cases q <;> rfl

theorem toNat_of_ofNat? {n : Nat} {q : Quantifier} (h : ofNat? n = some q) : q.toNat = n := by
  unfold ofNat? at h
  split at h <;> cases h <;> rfl

theorem toNat_inj {p q : Quantifier} (h : p.toNat = q.toNat) : p = q :=
  Option.some.inj ((ofNat?_toNat p).symm.trans (h ▸ ofNat?_toNat q))

end Quantifier

end TripleStore
