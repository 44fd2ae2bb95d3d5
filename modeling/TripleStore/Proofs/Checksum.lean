import Mathlib.Algebra.Group.Nat.Defs
import Mathlib.Logic.Function.Iterate
import TripleStore.Checksum
import TripleStore.Proofs.Text.Utf8

/-!
# Texts of four bytes

A checksum has four bytes itself, and it tells texts of four bytes apart.  A shift
of the register is linear in exclusive or and loses nothing.  A byte that is fed in
later meets the register when it is shifted down.  So it may as well stand that
much higher in the register from the start, and four bytes are one number that is
put into the register before it is shifted.

Longer texts may share a checksum.
-/

namespace TripleStore.Checksum

variable {x y : UInt32} {bs cs : List UInt8}

/-! ## One shift -/

/-- What is put into the register if a bit is shifted out. -/
def carry (x : UInt32) : UInt32 := if x.toNat % 2 = 1 then 0xEDB88320 else 0

theorem shift_eq (x : UInt32) : shift x = (x >>> 1) ^^^ carry x := by
  have hbit : (x &&& 1).toNat = x.toNat % 2 := by
    rw [UInt32.toNat_and]
    exact Nat.and_one_is_mod x.toNat
  rw [shift, carry]
  by_cases h : x.toNat % 2 = 1
  · have hone : x &&& 1 = 1 := UInt32.toNat_inj.mp (hbit.trans h)
    simp [h, hone]
  · have hone : x &&& 1 ≠ 1 := fun heq => h (hbit.symm.trans (congrArg UInt32.toNat heq))
    simp [h, hone]

theorem carry_xor (x y : UInt32) : carry (x ^^^ y) = carry x ^^^ carry y := by
  have hodd : (x ^^^ y).toNat % 2 = 1 ↔ ¬ (x.toNat % 2 = 1 ↔ y.toNat % 2 = 1) := by
    rw [UInt32.toNat_xor]
    exact Nat.xor_mod_two_eq_one
  rw [carry, if_congr hodd rfl rfl, carry, carry]
  by_cases hx : x.toNat % 2 = 1
  · by_cases hy : y.toNat % 2 = 1
    · simp [hx, hy]
    · simp [hx, hy]
  · by_cases hy : y.toNat % 2 = 1
    · simp [hx, hy]
    · simp [hx, hy]

/-- A shift is linear in exclusive or. -/
theorem shift_xor (x y : UInt32) : shift (x ^^^ y) = shift x ^^^ shift y := by
  rw [shift_eq, shift_eq x, shift_eq y, carry_xor, UInt32.shiftRight_xor]
  ac_rfl

theorem toNat_half (x : UInt32) : (x >>> 1).toNat = x.toNat / 2 := by
  rw [UInt32.toNat_shiftRight]
  exact Nat.shiftRight_eq_div_pow _ _

/-- A register that is even is halved. -/
theorem toNat_shift_of_even (h : x.toNat % 2 = 0) : (shift x).toNat = x.toNat / 2 := by
  rw [shift_eq, carry, if_neg (by omega), UInt32.xor_zero, toNat_half]

theorem eq_zero_of_shift (h : shift x = 0) : x = 0 := by
  have hhalf := toNat_half x
  have hlt := x.toNat_lt
  rw [shift_eq, carry] at h
  split at h
  · -- half of the register has no highest bit, and the polynomial has one
    have hpoly : (0xEDB88320 : UInt32).toNat = 0xEDB88320 := rfl
    rw [UInt32.xor_eq_zero_iff.mp h, hpoly] at hhalf
    omega
  · next hodd =>
    have hzero : (0 : UInt32).toNat = 0 := rfl
    rw [UInt32.xor_zero] at h
    rw [h, hzero] at hhalf
    exact UInt32.toNat_inj.mp (by omega)

/-- A shift loses nothing. -/
theorem shift_injective : Function.Injective shift := by
  intro x y h
  have hxor : shift (x ^^^ y) = 0 := by rw [shift_xor, h, UInt32.xor_self]
  exact UInt32.xor_eq_zero_iff.mp (eq_zero_of_shift hxor)

/-! ## Many shifts -/

theorem shifts_xor (n : Nat) (x y : UInt32) :
    shift^[n] (x ^^^ y) = shift^[n] x ^^^ shift^[n] y := by
  induction n generalizing x y with
  | zero => rfl
  | succ n ih => rw [Function.iterate_succ_apply, shift_xor, ih]; rfl

/-- Zeros at the low end are shifted out and nothing else happens. -/
theorem toNat_shifts {n m : Nat} (h : x.toNat = 2 ^ n * m) : (shift^[n] x).toNat = m := by
  induction n generalizing x with
  | zero => simpa using h
  | succ n ih =>
    have htwice : x.toNat = 2 * (2 ^ n * m) := by rw [h, Nat.pow_succ', Nat.mul_assoc]
    rw [Function.iterate_succ_apply]
    refine ih ?_
    rw [toNat_shift_of_even (by omega)]
    omega

theorem feed_eq (x : UInt32) (b : UInt8) : feed x b = shift^[8] (x ^^^ b.toUInt32) := rfl

/-! ## Bytes as a number -/

/-- Bytes as one number, the first byte lowest. -/
def word : List UInt8 → UInt32
  | [] => 0
  | b :: bs => b.toUInt32 ^^^ word bs <<< 8

theorem toNat_raised (x : UInt32) : (x <<< 8).toNat = x.toNat * 2 ^ 8 % 2 ^ 32 := by
  rw [UInt32.toNat_shiftLeft]
  exact congrArg (· % 2 ^ 32) (Nat.shiftLeft_eq _ _)

theorem word_lt (h : bs.length ≤ 4) : (word bs).toNat < 2 ^ (8 * bs.length) := by
  induction bs with
  | nil => exact Nat.one_pos
  | cons b bs ih =>
    have hbs := ih (Nat.le_of_succ_le h)
    rw [word, UInt32.toNat_xor, UInt8.toNat_toUInt32, toNat_raised]
    show _ < 2 ^ (8 * bs.length + 8)
    refine Nat.xor_lt_two_pow ?_ ?_
    · have hpos : 2 ^ 8 ≤ 2 ^ (8 * bs.length + 8) := Nat.pow_le_pow_right (by decide) (by omega)
      exact Nat.lt_of_lt_of_le b.toNat_lt hpos
    · rw [Nat.pow_add]
      exact Nat.lt_of_le_of_lt (Nat.mod_le _ _) (Nat.mul_lt_mul_of_pos_right hbs (by decide))

/-- Above one byte there is place for three. -/
theorem toNat_word_raised (h : bs.length ≤ 3) :
    (word bs <<< 8).toNat = (word bs).toNat * 2 ^ 8 := by
  have hword := word_lt (Nat.le_succ_of_le h)
  have hpow : 2 ^ (8 * bs.length) ≤ 2 ^ 24 :=
    Nat.pow_le_pow_right (by decide) (Nat.mul_le_mul_left 8 h)
  rw [toNat_raised, Nat.mod_eq_of_lt]
  omega

/-- The lowest byte is the first one. -/
theorem toNat_low (b : UInt8) (x : UInt32) : (b.toUInt32 ^^^ x <<< 8).toNat % 2 ^ 8 = b.toNat := by
  have hb : b.toNat % 2 ^ 8 = b.toNat := Nat.mod_eq_of_lt b.toNat_lt
  have hraised : x.toNat * 2 ^ 8 % 2 ^ 32 % 2 ^ 8 = 0 := by omega
  rw [UInt32.toNat_xor, Nat.xor_mod_two_pow, UInt8.toNat_toUInt32, toNat_raised, hb, hraised,
    Nat.xor_zero]

/-- Bytes are told apart by the number they make. -/
theorem word_injective (h : bs.length ≤ 4) (hlen : bs.length = cs.length)
    (heq : word bs = word cs) : bs = cs := by
  induction bs generalizing cs with
  | nil => exact (List.length_eq_zero_iff.mp hlen.symm).symm
  | cons b bs ih =>
    cases cs with
    | nil => cases hlen
    | cons c cs =>
      have hbs : bs.length ≤ 3 := Nat.le_of_succ_le_succ h
      have hrests : bs.length = cs.length := Nat.succ.inj hlen
      have hfirst : b = c := by
        have hlow := congrArg (fun w : UInt32 => w.toNat % 2 ^ 8) heq
        exact UInt8.toNat_inj.mp ((toNat_low b _).symm.trans (hlow.trans (toNat_low c _)))
      subst hfirst
      have hrest : word bs = word cs := by
        have hraised := congrArg UInt32.toNat ((UInt32.xor_right_inj _).mp heq)
        rw [toNat_word_raised hbs, toNat_word_raised (hrests ▸ hbs)] at hraised
        exact UInt32.toNat_inj.mp (Nat.eq_of_mul_eq_mul_right (by decide) hraised)
      rw [ih (Nat.le_succ_of_le hbs) hrests hrest]

/-- Bytes that are fed in after others stand above them in the register. -/
theorem foldl_feed (h : bs.length ≤ 4) :
    bs.foldl feed x = shift^[8 * bs.length] (x ^^^ word bs) := by
  induction bs generalizing x with
  | nil => simp [word]
  | cons b bs ih =>
    have hbs : bs.length ≤ 3 := Nat.le_of_succ_le_succ h
    have hdown : shift^[8] (word bs <<< 8) = word bs := by
      refine UInt32.toNat_inj.mp (toNat_shifts ?_)
      rw [toNat_word_raised hbs, Nat.mul_comm]
    calc (b :: bs).foldl feed x
        = shift^[8 * bs.length] (feed x b ^^^ word bs) := ih (Nat.le_succ_of_le hbs)
      _ = shift^[8 * bs.length] (shift^[8] (x ^^^ word (b :: bs))) := by
          rw [feed_eq, word, ← UInt32.xor_assoc, shifts_xor 8 _ (word bs <<< 8), hdown]
      _ = shift^[8 * (b :: bs).length] (x ^^^ word (b :: bs)) := by
          rw [← Function.iterate_add_apply]
          rfl

/-! ## Checksums -/

/-- Bytes of which there are as many, and no more than four, are told apart by their checksums. -/
theorem ofBytes_injective (h : bs.length ≤ 4) (hlen : bs.length = cs.length)
    (heq : ofBytes bs = ofBytes cs) : bs = cs := by
  have hfold : bs.foldl feed 0xFFFFFFFF = cs.foldl feed 0xFFFFFFFF :=
    (UInt32.xor_left_inj _).mp heq
  rw [foldl_feed h, foldl_feed (hlen ▸ h), hlen] at hfold
  have hword := shift_injective.iterate _ hfold
  exact word_injective h hlen ((UInt32.xor_right_inj _).mp hword)

/-- Texts of four bytes are told apart by their checksums. -/
theorem ofText_injective {s t : String} (hs : Text.Utf8.size s = 4) (ht : Text.Utf8.size t = 4)
    (heq : ofText s = ofText t) : s = t := by
  have hbytes : Text.Utf8.encode s = Text.Utf8.encode t :=
    ofBytes_injective (Nat.le_of_eq hs) (hs.trans ht.symm) heq
  have hread := Text.Utf8.decode_encode s
  rw [hbytes, Text.Utf8.decode_encode] at hread
  exact (Except.ok.inj hread).symm

end TripleStore.Checksum
