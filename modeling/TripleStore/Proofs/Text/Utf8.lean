import Mathlib.Data.List.Basic
import TripleStore.Text.Utf8

/-!
# Texts are read back

The UTF-8 bytes of a text are read back as the text.  A character has one to four
bytes, and its lead byte says how many.  The ranges that a lead byte sets for the
byte after it never keep a character out: they rule out overlong forms, of which
none is written, and code points that are no characters.
-/

namespace TripleStore.Text.Utf8

/-! ## Lead bytes -/

theorem lead?_of_two {n : Nat} (h : n < 30) :
    lead? (UInt8.ofNat (n + 2 + 192)) = some ⟨1, 0x80, 0xBF, n + 2⟩ := by
  revert n
  decide

theorem lead?_of_three {n : Nat} (h : n < 16) : lead? (UInt8.ofNat (n + 224)) =
    some ⟨2, if n = 0 then 0xA0 else 0x80, if n = 13 then 0x9F else 0xBF, n⟩ := by
  revert n
  decide

theorem lead?_of_four {n : Nat} (h : n < 5) : lead? (UInt8.ofNat (n + 240)) =
    some ⟨3, if n = 0 then 0x90 else 0x80, if n = 4 then 0x8F else 0xBF, n⟩ := by
  revert n
  decide

/-! ## Continuation bytes -/

/-- The byte of six bits that continue a character. -/
def tail (n : Nat) : UInt8 := UInt8.ofNat (n % 64 + 128)

theorem toNat_tail (n : Nat) : (tail n).toNat = n % 64 + 128 := by
  rw [tail, UInt8.toNat_ofNat']
  omega

theorem push_tail (acc n : Nat) : push acc (tail n) = acc * 64 + n % 64 := by
  rw [push, toNat_tail]
  omega

theorem isTail_tail (n : Nat) : isTail (tail n) = true := by
  have hlow : (128 : UInt8).toNat = 128 := rfl
  have hhigh : (191 : UInt8).toNat = 191 := rfl
  rw [isTail, Bool.and_eq_true, decide_eq_true_eq, decide_eq_true_eq, UInt8.le_iff_toNat_le,
    UInt8.le_iff_toNat_le, toNat_tail, hlow, hhigh]
  omega

theorem tails_tail (start n seen acc m : Nat) (rest : List UInt8) :
    tails start (n + 1) seen acc (tail m :: rest) =
      tails start n (seen + 1) (acc * 64 + m % 64) rest := by
  rw [tails, if_pos (isTail_tail m), push_tail]

/-! ## Characters -/

/-- A lead byte and a byte in its range are read with the bytes that follow. -/
theorem decodeChar_of_lead {start n more bits : Nat} {b low high : UInt8} {rest : List UInt8}
    (hb : 0x80 ≤ b.toNat) (hl : lead? b = some ⟨more + 1, low, high, bits⟩)
    (hlow : low.toNat ≤ n % 64 + 128) (hhigh : n % 64 + 128 ≤ high.toNat) :
    decodeChar start b (tail n :: rest) =
      (tails start more 2 (bits * 64 + n % 64) rest).map fun q =>
        ⟨Char.ofNat q.1, more + 2, q.2⟩ := by
  have hlead : ¬ b < 0x80 := by
    rw [UInt8.lt_iff_toNat_lt]
    exact Nat.not_lt.mpr hb
  have hin : (decide (low ≤ tail n) && decide (tail n ≤ high)) = true := by
    rw [Bool.and_eq_true, decide_eq_true_eq, decide_eq_true_eq, UInt8.le_iff_toNat_le,
      UInt8.le_iff_toNat_le, toNat_tail]
    exact ⟨hlow, hhigh⟩
  unfold decodeChar
  simp only [if_neg hlead, hl, hin, if_true, push_tail, Nat.add_sub_cancel]

/-- A number of eight bits whose highest bit is set. -/
theorem le_toNat_ofNat {n : Nat} (hlow : 0x80 ≤ n) (hhigh : n < 256) :
    0x80 ≤ (UInt8.ofNat n).toNat :=
  (UInt8.toNat_ofNat_of_lt' hhigh).symm ▸ hlow

theorem decodeChar_one {v start : Nat} {rest : List UInt8} (h : v ≤ 0x7F) :
    decodeChar start (UInt8.ofNat v) rest = .ok ⟨Char.ofNat v, 1, rest⟩ := by
  have hsize : v < 256 := by omega
  have hb : (UInt8.ofNat v).toNat = v := UInt8.toNat_ofNat_of_lt' hsize
  have hlead : UInt8.ofNat v < 0x80 := by
    rw [UInt8.lt_iff_toNat_lt, hb]
    exact Nat.lt_succ_of_le h
  unfold decodeChar
  simp only [if_pos hlead, hb]

theorem decodeChar_two {v start : Nat} {rest : List UInt8} (hv : 0x7F < v) (hv' : v ≤ 0x7FF) :
    decodeChar start (UInt8.ofNat (v / 64 % 32 + 0xC0)) (tail v :: rest) =
      .ok ⟨Char.ofNat v, 2, rest⟩ := by
  obtain ⟨n, hn⟩ : ∃ n, v / 64 % 32 = n + 2 := ⟨v / 64 % 32 - 2, by omega⟩
  have hb : 0x80 ≤ (UInt8.ofNat (n + 2 + 192)).toNat := le_toNat_ofNat (by omega) (by omega)
  have hlow : (0x80 : UInt8).toNat ≤ v % 64 + 128 := Nat.le_add_left _ _
  have hhigh : v % 64 + 128 ≤ (0xBF : UInt8).toNat := by
    show _ ≤ 191
    omega
  have hpoint : (n + 2) * 64 + v % 64 = v := by omega
  rw [hn, decodeChar_of_lead hb (lead?_of_two (by omega)) hlow hhigh, hpoint]
  rfl

theorem decodeChar_three {v start : Nat} {rest : List UInt8} (hv : 0x7FF < v)
    (hv' : v ≤ 0xFFFF) (hvalid : v < 0xD800 ∨ 0xDFFF < v) :
    decodeChar start (UInt8.ofNat (v / 4096 % 16 + 0xE0)) (tail (v / 64) :: tail v :: rest) =
      .ok ⟨Char.ofNat v, 3, rest⟩ := by
  obtain ⟨n, hn⟩ : ∃ n, n = v / 4096 % 16 := ⟨_, rfl⟩
  have hb : 0x80 ≤ (UInt8.ofNat (n + 224)).toNat := le_toNat_ofNat (by omega) (by omega)
  have hlow : (if n = 0 then 0xA0 else 0x80 : UInt8).toNat ≤ v / 64 % 64 + 128 := by
    split
    · show 160 ≤ _
      omega
    · exact Nat.le_add_left _ _
  have hhigh : v / 64 % 64 + 128 ≤ (if n = 13 then 0x9F else 0xBF : UInt8).toNat := by
    split
    · show _ ≤ 159
      omega
    · show _ ≤ 191
      omega
  have hpoint : (n * 64 + v / 64 % 64) * 64 + v % 64 = v := by omega
  rw [← hn, decodeChar_of_lead hb (lead?_of_three (by omega)) hlow hhigh, tails_tail, hpoint]
  rfl

theorem decodeChar_four {v start : Nat} {rest : List UInt8} (hv : 0xFFFF < v)
    (hv' : v < 0x110000) :
    decodeChar start (UInt8.ofNat (v / 262144 % 8 + 0xF0))
      (tail (v / 4096) :: tail (v / 64) :: tail v :: rest) = .ok ⟨Char.ofNat v, 4, rest⟩ := by
  obtain ⟨n, hn⟩ : ∃ n, n = v / 262144 % 8 := ⟨_, rfl⟩
  have hb : 0x80 ≤ (UInt8.ofNat (n + 240)).toNat := le_toNat_ofNat (by omega) (by omega)
  have hlow : (if n = 0 then 0x90 else 0x80 : UInt8).toNat ≤ v / 4096 % 64 + 128 := by
    split
    · show 144 ≤ _
      omega
    · exact Nat.le_add_left _ _
  have hhigh : v / 4096 % 64 + 128 ≤ (if n = 4 then 0x8F else 0xBF : UInt8).toNat := by
    split
    · show _ ≤ 143
      omega
    · show _ ≤ 191
      omega
  have hpoint : ((n * 64 + v / 4096 % 64) * 64 + v / 64 % 64) * 64 + v % 64 = v := by omega
  rw [← hn, decodeChar_of_lead hb (lead?_of_four (by omega)) hlow hhigh, tails_tail, tails_tail,
    hpoint]
  rfl

/-- A character is read back, whatever follows its bytes. -/
theorem exists_decodeChar (c : Char) : ∃ b bs, String.utf8EncodeChar c = b :: bs ∧
    ∀ start rest, decodeChar start b (bs ++ rest) = .ok ⟨c, bs.length + 1, rest⟩ := by
  obtain ⟨v, hv⟩ : ∃ v, v = c.val.toNat := ⟨_, rfl⟩
  have hchar : Char.ofNat v = c := hv ▸ Char.ofNat_toNat c
  have hvalid : v < 0xD800 ∨ 0xDFFF < v ∧ v < 0x110000 := hv ▸ c.valid
  rw [String.utf8EncodeChar, ← hv, ← hchar]
  by_cases h₁ : v ≤ 0x7F
  · rw [if_pos h₁]
    exact ⟨_, _, rfl, fun _ _ => decodeChar_one h₁⟩
  rw [if_neg h₁]
  by_cases h₂ : v ≤ 0x7FF
  · rw [if_pos h₂]
    exact ⟨_, _, rfl, fun _ _ => decodeChar_two (by omega) h₂⟩
  rw [if_neg h₂]
  by_cases h₃ : v ≤ 0xFFFF
  · rw [if_pos h₃]
    exact ⟨_, _, rfl, fun _ _ => decodeChar_three (by omega) h₃ (by omega)⟩
  rw [if_neg h₃]
  exact ⟨_, _, rfl, fun _ _ => decodeChar_four (by omega) (by omega)⟩

/-! ## Texts -/

theorem decodeFrom_append (start : Nat) (acc cs : List Char) :
    decodeFrom start acc (cs.flatMap String.utf8EncodeChar) = .ok (acc.reverse ++ cs) := by
  induction cs generalizing start acc with
  | nil => simp [decodeFrom]
  | cons c cs ih =>
    obtain ⟨b, bs, hc, hread⟩ := exists_decodeChar c
    rw [List.flatMap_cons, hc, List.cons_append, decodeFrom]
    split
    · next h =>
      rw [hread] at h
      cases h
    · next p h =>
      rw [hread] at h
      cases h
      rw [ih, List.reverse_cons, List.append_assoc, List.singleton_append]

/-- A text is read back from its bytes. -/
theorem decode_encode (s : String) : decode (encode s) = .ok s := by
  rw [decode, encode, decodeFrom_append, List.reverse_nil, List.nil_append]
  exact congrArg Except.ok String.ofList_toList

end TripleStore.Text.Utf8
