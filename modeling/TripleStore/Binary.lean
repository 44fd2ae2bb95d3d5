import TripleStore.Text.Utf8

/-!
# Binary records

Entity records and snapshot files share one format.  A number is a fixed count
of little-endian bytes.  A list is its length in eight bytes and then its items,
and a text is the list of its UTF-8 bytes.  There is no padding and no end mark.

A decoder takes bytes from the front and returns what is left, so a record may
be followed by anything.  It fails at the end of the input, at a tag it does not
know and at text that is not UTF-8.

`take_append` and `word_append` say that bytes and numbers are read back as they
were written, and that what follows them is left.
-/

namespace TripleStore.Binary

/-! ## Faults -/

/-- Why bytes are not a record. -/
inductive Fault where
  /-- The bytes end inside a number or before the next item. -/
  | endOfInput
  /-- The bytes end inside a text. -/
  | endOfText
  /-- A tag is not below the number of alternatives. -/
  | unknownTag (tag alternatives : Nat)
  /-- A text is not UTF-8. -/
  | badText (cause : Text.Utf8.Fault)
deriving DecidableEq, Repr, Inhabited

/-- The wording of a fault. -/
def Fault.message : Fault → String
  | .endOfInput => "io error: unexpected end of file"
  | .endOfText => "io error: "
  | .unknownTag t n =>
    "invalid value: integer \x60" ++ toString t ++ "\x60, expected variant index 0 <= i < "
      ++ toString n
  | .badText cause => "string is not valid utf8: " ++ cause.message

/-! ## Fixed-width numbers -/

/-- The `k` low base-256 digits of a number, lowest first. -/
def littleEndian : Nat → Nat → List UInt8
  | 0, _ => []
  | k + 1, n => UInt8.ofNat n :: littleEndian k (n / 256)

/-- The number with the given base-256 digits, lowest first. -/
def ofLittleEndian : List UInt8 → Nat
  | [] => 0
  | b :: bs => b.toNat + 256 * ofLittleEndian bs

/-- The `k` low base-256 digits of a number, highest first. -/
def bigEndian (k n : Nat) : List UInt8 := (littleEndian k n).reverse

/-- The number with the given base-256 digits, highest first. -/
def ofBigEndian (bs : List UInt8) : Nat := ofLittleEndian bs.reverse

@[simp] theorem length_littleEndian (k n : Nat) : (littleEndian k n).length = k := by
  induction k generalizing n with
  | zero => rfl
  | succ k ih => simp [littleEndian, ih]

@[simp] theorem length_bigEndian (k n : Nat) : (bigEndian k n).length = k := by
  simp [bigEndian]

/-- The number of numbers that `k` bytes can hold. -/
def capacity : Nat → Nat
  | 0 => 1
  | k + 1 => 256 * capacity k

/-- Digits are read back, modulo what `k` digits can hold. -/
theorem ofLittleEndian_littleEndian (k n : Nat) :
    ofLittleEndian (littleEndian k n) = n % capacity k := by
  induction k generalizing n with
  | zero => simp [littleEndian, ofLittleEndian, capacity, Nat.mod_one]
  | succ k ih =>
    have hn : (UInt8.ofNat n).toNat = n % 256 := UInt8.toNat_ofNat'
    rw [littleEndian, ofLittleEndian, ih, hn, capacity, Nat.mod_mul]

theorem ofBigEndian_bigEndian (k n : Nat) : ofBigEndian (bigEndian k n) = n % capacity k := by
  simp [ofBigEndian, bigEndian, ofLittleEndian_littleEndian]

/-- Every list of bytes is the digits of the number it spells. -/
theorem littleEndian_ofLittleEndian (bs : List UInt8) :
    littleEndian bs.length (ofLittleEndian bs) = bs := by
  induction bs with
  | nil => rfl
  | cons b bs ih =>
    have hb : b.toNat < 256 := b.toNat_lt
    have hd : (b.toNat + 256 * ofLittleEndian bs) / 256 = ofLittleEndian bs := by omega
    simp only [List.length_cons, littleEndian, ofLittleEndian, hd, ih]
    congr 1
    apply UInt8.toNat_inj.mp
    simp only [UInt8.toNat_ofNat']
    omega

/-! ## Decoders -/

/-- Bytes taken from the front, and what is left of them. -/
abbrev Decoder := StateT (List UInt8) (Except Fault)

/-- The first `n` bytes and the bytes after them, or none if there are fewer. -/
def splitExactly (n : Nat) (bs : List UInt8) : Option (List UInt8 × List UInt8) :=
  let first := bs.take n
  if first.length = n then some (first, bs.drop n) else none

theorem splitExactly_append (as bs : List UInt8) :
    splitExactly as.length (as ++ bs) = some (as, bs) := by
  simp [splitExactly]

theorem eq_append_of_splitExactly {n : Nat} {cs as bs : List UInt8}
    (h : splitExactly n cs = some (as, bs)) : as.length = n ∧ cs = as ++ bs := by
  simp only [splitExactly] at h
  split at h
  · rename_i hl
    simp only [Option.some.injEq, Prod.mk.injEq] at h
    obtain ⟨rfl, rfl⟩ := h
    exact ⟨hl, (List.take_append_drop n cs).symm⟩
  · cases h

/-- Take `n` bytes, or fail as told. -/
def takeOr (fault : Fault) (n : Nat) : Decoder (List UInt8) := fun bs =>
  match splitExactly n bs with
  | some s => .ok s
  | none => .error fault

/-- Take `n` bytes. -/
def take (n : Nat) : Decoder (List UInt8) := takeOr .endOfInput n

/-- Take a number of `k` bytes. -/
def word (k : Nat) : Decoder Nat := do
  return ofLittleEndian (← take k)

/-- Take `n` items. -/
def items {α : Type} (item : Decoder α) : Nat → Decoder (List α)
  | 0 => return []
  | n + 1 => do
    let a ← item
    let as ← items item n
    return a :: as

/-- Take a list: its length and its items. -/
def list {α : Type} (item : Decoder α) : Decoder (List α) := do
  items item (← word 8)

/-- Take a list of bytes. -/
def bytes : Decoder (List UInt8) := do
  take (← word 8)

/-- Take a text. -/
def text : Decoder String := do
  match Text.Utf8.decode (← takeOr .endOfText (← word 8)) with
  | .ok s => return s
  | .error e => throw (.badText e)

/-- Take two values in a row. -/
def pair {α β : Type} (first : Decoder α) (second : Decoder β) : Decoder (α × β) := do
  let a ← first
  let b ← second
  return (a, b)

/-- Decode a record from the front of bytes, whatever follows it. -/
def decode {α : Type} (d : Decoder α) (bs : List UInt8) : Except Fault α :=
  (d.run bs).map (·.1)

/-! ## Writers -/

/-- A length or any number of eight bytes. -/
def putNat (n : Nat) : List UInt8 := littleEndian 8 n

/-- A list: its length and its items. -/
def putList {α : Type} (put : α → List UInt8) (as : List α) : List UInt8 :=
  putNat as.length ++ as.flatMap put

/-- A list of bytes. -/
def putBytes (bs : List UInt8) : List UInt8 := putNat bs.length ++ bs

/-- A text. -/
def putText (s : String) : List UInt8 := putBytes (Text.Utf8.encode s)

/-- Two values in a row. -/
def putPair {α β : Type} (first : α → List UInt8) (second : β → List UInt8) (p : α × β) :
    List UInt8 :=
  first p.1 ++ second p.2

/-! ## Reading back -/

theorem take_append (as bs : List UInt8) : take as.length (as ++ bs) = .ok (as, bs) := by
  simp [take, takeOr, splitExactly_append]

/-- A number that fits its width is read back. -/
theorem word_append {k n : Nat} (h : n < capacity k) (bs : List UInt8) :
    word k (littleEndian k n ++ bs) = .ok (n, bs) := by
  have := take_append (littleEndian k n) bs
  rw [length_littleEndian] at this
  show (take k (littleEndian k n ++ bs) >>= fun p => Except.ok (ofLittleEndian p.1, p.2)) = _
  rw [this]
  show Except.ok (ofLittleEndian (littleEndian k n), bs) = _
  rw [ofLittleEndian_littleEndian, Nat.mod_eq_of_lt h]

end TripleStore.Binary
