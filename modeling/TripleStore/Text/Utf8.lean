/-!
# UTF-8

Names, literals and whole files are stored as UTF-8.  Writing never fails.
Reading reports where the first sequence that is not UTF-8 starts, and how long
it is, as snapshot files name both in their error.

A lead byte settles how many continuation bytes follow it and which range the
first of them has.  That range keeps overlong forms, surrogates and code points
past `0x10FFFF` out, so every sequence that passes is a character.
-/

namespace TripleStore.Text.Utf8

/-! ## Writing -/

/-- The UTF-8 bytes of a text. -/
def encode (s : String) : List UInt8 :=
  s.toList.flatMap String.utf8EncodeChar

/-- The number of UTF-8 bytes of a text. -/
def size (s : String) : Nat :=
  (encode s).length

/-! ## Reading -/

/-- Why bytes are not UTF-8. -/
inductive Fault where
  /-- A sequence of `length` bytes at `start` starts no character. -/
  | invalid (length start : Nat)
  /-- The bytes end inside the character that starts at `start`. -/
  | incomplete (start : Nat)
deriving DecidableEq, Repr, Inhabited

/-- The wording of a fault. -/
def Fault.message : Fault → String
  | .invalid n i => s!"invalid utf-8 sequence of {n} bytes from index {i}"
  | .incomplete i => s!"incomplete utf-8 byte sequence from index {i}"

/-- A continuation byte. -/
def isTail (b : UInt8) : Bool := 0x80 ≤ b && b ≤ 0xBF

/-- How a lead byte goes on: the number of continuation bytes, the range of the
first of them, and the bits the lead byte adds to the code point. -/
structure Lead where
  /-- Continuation bytes after the lead byte, 1 to 3. -/
  more : Nat
  /-- Least value of the first of them. -/
  low : UInt8
  /-- Greatest value of the first of them. -/
  high : UInt8
  /-- The payload of the lead byte. -/
  bits : Nat
deriving DecidableEq, Repr

/-- The lead bytes of sequences of two to four bytes. -/
def lead? (b : UInt8) : Option Lead :=
  if 0xC2 ≤ b && b ≤ 0xDF then some ⟨1, 0x80, 0xBF, b.toNat % 32⟩
  else if b == 0xE0 then some ⟨2, 0xA0, 0xBF, 0⟩
  else if (0xE1 ≤ b && b ≤ 0xEC) || b == 0xEE || b == 0xEF then
    some ⟨2, 0x80, 0xBF, b.toNat % 16⟩
  else if b == 0xED then some ⟨2, 0x80, 0x9F, 13⟩
  else if b == 0xF0 then some ⟨3, 0x90, 0xBF, 0⟩
  else if 0xF1 ≤ b && b ≤ 0xF3 then some ⟨3, 0x80, 0xBF, b.toNat % 8⟩
  else if b == 0xF4 then some ⟨3, 0x80, 0x8F, 4⟩
  else none

/-- The code point after one more continuation byte. -/
def push (acc : Nat) (b : UInt8) : Nat := acc * 64 + b.toNat % 64

/-- Read `n` more continuation bytes of the character at `start`, of which `seen`
bytes are read and spell `acc`.  The answer is the code point and the rest. -/
def tails (start : Nat) : Nat → Nat → Nat → List UInt8 → Except Fault (Nat × List UInt8)
  | 0, _, acc, rest => .ok (acc, rest)
  | _ + 1, _, _, [] => .error (.incomplete start)
  | n + 1, seen, acc, b :: rest =>
    if isTail b then tails start n (seen + 1) (push acc b) rest
    else .error (.invalid seen start)

/-- A character read off the front of bytes. -/
structure Piece where
  /-- The character. -/
  char : Char
  /-- The number of bytes it took. -/
  size : Nat
  /-- The bytes after it. -/
  rest : List UInt8

/-- Read the character at `start`, given its lead byte and the bytes after that. -/
def decodeChar (start : Nat) (b : UInt8) (rest : List UInt8) : Except Fault Piece :=
  if b < 0x80 then .ok ⟨Char.ofNat b.toNat, 1, rest⟩
  else match lead? b, rest with
    | none, _ => .error (.invalid 1 start)
    | some _, [] => .error (.incomplete start)
    | some l, t :: rest =>
      if l.low ≤ t && t ≤ l.high then
        (tails start (l.more - 1) 2 (push l.bits t) rest).map fun q =>
          ⟨Char.ofNat q.1, l.more + 1, q.2⟩
      else .error (.invalid 1 start)

theorem length_tails {start n seen acc : Nat} {bs : List UInt8} {q : Nat × List UInt8}
    (h : tails start n seen acc bs = .ok q) : q.2.length ≤ bs.length := by
  fun_induction tails start n seen acc bs with
  | case1 => cases h; exact Nat.le_refl _
  | case2 => cases h
  | case3 _ _ _ _ _ _ ih => exact Nat.le_succ_of_le (ih h)
  | case4 => cases h

/-- Reading a character never makes the rest longer. -/
theorem length_decodeChar {start : Nat} {b : UInt8} {bs : List UInt8} {p : Piece}
    (h : decodeChar start b bs = .ok p) : p.rest.length ≤ bs.length := by
  unfold decodeChar at h
  split at h
  · cases h; exact Nat.le_refl _
  · split at h
    · cases h
    · cases h
    · split at h
      · rename_i l t rest _ _
        cases ht : tails start (l.more - 1) 2 (push l.bits t) rest with
        | error e => simp [ht, Except.map] at h
        | ok q =>
          simp only [ht, Except.map, Except.ok.injEq] at h
          subst h
          exact Nat.le_succ_of_le (length_tails ht)
      · cases h

/-- Read characters to the end, the first of them at `start`, onto the
characters read before, latest first. -/
def decodeFrom (start : Nat) (acc : List Char) (bs : List UInt8) : Except Fault (List Char) :=
  match bs with
  | [] => .ok acc.reverse
  | b :: rest =>
    match _read : decodeChar start b rest with
    | .error e => .error e
    | .ok p => decodeFrom (start + p.size) (p.char :: acc) p.rest
termination_by bs.length
decreasing_by
  have := length_decodeChar _read
  simp only [List.length_cons]
  omega

/-- The text that bytes are the UTF-8 form of. -/
def decode (bs : List UInt8) : Except Fault String :=
  (decodeFrom 0 [] bs).map String.ofList

end TripleStore.Text.Utf8
