import Mathlib.Tactic.Ring
import TripleStore.Binary

/-!
# Numbers of bytes

A number is spelled by its digits to the base 256.  Bytes that follow one another
are digits of one number, bytes of one length are told apart by their number, and
a number is below what so many bytes can hold.
-/

namespace TripleStore.Binary

theorem ofLittleEndian_append (as bs : List UInt8) :
    ofLittleEndian (as ++ bs) = ofLittleEndian as + 256 ^ as.length * ofLittleEndian bs := by
  induction as with
  | nil => simp [ofLittleEndian]
  | cons a as ih =>
    rw [List.cons_append, ofLittleEndian, ofLittleEndian, ih, List.length_cons, Nat.pow_succ]
    ring

theorem ofBigEndian_append (as bs : List UInt8) :
    ofBigEndian (as ++ bs) = ofBigEndian as * 256 ^ bs.length + ofBigEndian bs := by
  rw [ofBigEndian, List.reverse_append, ofLittleEndian_append, List.length_reverse]
  simp only [ofBigEndian]
  ring

theorem capacity_eq (k : Nat) : capacity k = 256 ^ k := by
  induction k with
  | zero => rfl
  | succ k ih => rw [capacity, ih, Nat.pow_succ, Nat.mul_comm]

/-- A number of some bytes is not more than they can hold. -/
theorem ofLittleEndian_lt (bs : List UInt8) : ofLittleEndian bs < capacity bs.length := by
  induction bs with
  | nil => exact Nat.one_pos
  | cons b bs ih =>
    have hb : b.toNat < 256 := b.toNat_lt
    rw [ofLittleEndian, List.length_cons, capacity]
    omega

theorem ofBigEndian_lt (bs : List UInt8) : ofBigEndian bs < 256 ^ bs.length := by
  rw [ofBigEndian, ← List.length_reverse, ← capacity_eq]
  exact ofLittleEndian_lt _

/-- Bytes of one length are told apart by their number. -/
theorem ofBigEndian_inj {as bs : List UInt8} (hlen : as.length = bs.length)
    (h : ofBigEndian as = ofBigEndian bs) : as = bs := by
  have hrev : as.reverse = bs.reverse := by
    rw [← littleEndian_ofLittleEndian as.reverse, ← littleEndian_ofLittleEndian bs.reverse,
      List.length_reverse, List.length_reverse, hlen]
    exact congrArg _ h
  exact List.reverse_inj.mp hrev

/-- Every list of bytes is the digits of the number it spells. -/
theorem bigEndian_ofBigEndian (bs : List UInt8) : bigEndian bs.length (ofBigEndian bs) = bs := by
  have h := littleEndian_ofLittleEndian bs.reverse
  rw [List.length_reverse] at h
  rw [bigEndian, ofBigEndian, h, List.reverse_reverse]

theorem ofBigEndian_replicate_zero (n : Nat) : ofBigEndian (List.replicate n 0) = 0 := by
  rw [ofBigEndian, List.reverse_replicate]
  induction n with
  | zero => rfl
  | succ n ih => rw [List.replicate_succ, ofLittleEndian, ih]; rfl

end TripleStore.Binary
