import TripleStore.Binary
import TripleStore.Proofs.Text.Utf8

/-!
# Spellings

A value may be written in more than one way, as a map may be written in any order
of its entries.  A spelling says which bytes may stand for a value.

A decoder reads a spelling if it takes the bytes of every value back, whatever
follows them.  Lengths have eight bytes, so this holds for bytes of which there
are not more than eight bytes can count.  A spelling that is read is never empty.
So a list is no longer than its bytes, and its length needs no bound of its own.
-/

namespace TripleStore.Binary

variable {α β : Type}

/-- A decoder after another takes what that one leaves. -/
theorem bind_of_ok {d : Decoder α} {f : α → Decoder β} {bs rest : List UInt8} {a : α}
    (h : d bs = .ok (a, rest)) : (d >>= f) bs = f a rest := by
  show (d bs >>= fun p => f p.1 p.2) = _
  rw [h]
  rfl

/-- Which bytes may stand for a value. -/
abbrev Spelling (α : Type) := α → List UInt8 → Prop

namespace Spelling

/-- The bytes that a writer writes. -/
def written (put : α → List UInt8) : Spelling α := fun a bs => bs = put a

/-- The bytes of two parts of a value, in a row. -/
def both {γ : Type} (first : Spelling α) (second : Spelling β) (f : γ → α) (g : γ → β) :
    Spelling γ := fun c bs =>
  ∃ as rest, first (f c) as ∧ second (g c) rest ∧ bs = as ++ rest

/-- Two values in a row. -/
def pair (first : Spelling α) (second : Spelling β) : Spelling (α × β) :=
  both first second Prod.fst Prod.snd

/-- The bytes of the items of a list, in a row. -/
inductive Items (item : Spelling α) : List α → List UInt8 → Prop
  /-- No items have no bytes. -/
  | nil : Items item [] []
  /-- One more item has its bytes in front. -/
  | cons {a : α} {as : List α} {bs rest : List UInt8} :
    item a bs → Items item as rest → Items item (a :: as) (bs ++ rest)

/-- A list: its length and its items. -/
def list (item : Spelling α) : Spelling (List α) := fun as bs =>
  ∃ body, Items item as body ∧ bs = putNat as.length ++ body

/-! ## Writers -/

theorem items_flatMap {item : Spelling α} {put : α → List UInt8} {as : List α}
    (h : ∀ a ∈ as, item a (put a)) : Items item as (as.flatMap put) := by
  induction as with
  | nil => exact .nil
  | cons a as ih =>
    obtain ⟨ha, has⟩ := List.forall_mem_cons.mp h
    exact .cons ha (ih has)

theorem list_putList {item : Spelling α} {put : α → List UInt8} {as : List α}
    (h : ∀ a ∈ as, item a (put a)) : list item as (putList put as) :=
  ⟨_, items_flatMap h, rfl⟩

/-! ## Decoders -/

/-- A decoder reads a spelling. -/
structure Reads (s : Spelling α) (d : Decoder α) : Prop where
  /-- No value is spelled without bytes. -/
  pos : ∀ a bs, s a bs → 0 < bs.length
  /-- Bytes are read back, whatever follows them. -/
  read : ∀ a bs rest, s a bs → bs.length < capacity 8 → d (bs ++ rest) = .ok (a, rest)

/-- All bytes of a value are read. -/
theorem Reads.decode {s : Spelling α} {d : Decoder α} (h : s.Reads d) {a : α} {bs : List UInt8}
    (ha : s a bs) (hlen : bs.length < capacity 8) : Binary.decode d bs = .ok a := by
  have hread := h.read a bs [] ha hlen
  rw [List.append_nil] at hread
  rw [Binary.decode, StateT.run, hread]
  rfl

/-- The parts of a value are read one after the other, and the value is made of them. -/
theorem Reads.both {γ : Type} {first : Spelling α} {second : Spelling β} {f : γ → α} {g : γ → β}
    {d : Decoder α} {e : Decoder β} {make : α → β → γ} (hf : first.Reads d) (hs : second.Reads e)
    (hmake : ∀ c, make (f c) (g c) = c) : (both first second f g).Reads (do
      let a ← d
      let b ← e
      return make a b) where
  pos := by
    rintro c bs ⟨as, rest, ha, -, rfl⟩
    have hpos := hf.pos _ as ha
    rw [List.length_append]
    omega
  read := by
    rintro c bs rest ⟨as, bs', ha, hb, rfl⟩ hlen
    rw [List.length_append] at hlen
    rw [List.append_assoc, bind_of_ok (hf.read _ as _ ha (by omega)),
      bind_of_ok (hs.read _ bs' _ hb (by omega)), hmake]
    rfl

theorem Reads.pair {first : Spelling α} {second : Spelling β} {d : Decoder α} {e : Decoder β}
    (hf : first.Reads d) (hs : second.Reads e) : (pair first second).Reads (Binary.pair d e) :=
  hf.both hs fun _ => rfl

/-- There are not more items than bytes. -/
theorem Reads.length_le {item : Spelling α} {d : Decoder α} (h : item.Reads d) {as : List α}
    {body : List UInt8} (hi : Items item as body) : as.length ≤ body.length := by
  induction hi with
  | nil => exact Nat.le_refl _
  | @cons a as bs rest ha _ ih =>
    have hpos := h.pos a bs ha
    rw [List.length_cons, List.length_append]
    omega

theorem Reads.items {item : Spelling α} {d : Decoder α} (h : item.Reads d) {as : List α}
    {body : List UInt8} (hi : Items item as body) (rest : List UInt8)
    (hlen : body.length < capacity 8) :
    Binary.items d as.length (body ++ rest) = .ok (as, rest) := by
  induction hi with
  | nil => rfl
  | @cons a as bs body ha _ ih =>
    rw [List.length_append] at hlen
    rw [List.append_assoc, List.length_cons, Binary.items,
      bind_of_ok (h.read a bs _ ha (by omega)), bind_of_ok (ih (by omega))]
    rfl

theorem Reads.list {item : Spelling α} {d : Decoder α} (h : item.Reads d) :
    (list item).Reads (Binary.list d) where
  pos := by
    rintro as bs ⟨body, -, rfl⟩
    rw [List.length_append, putNat, length_littleEndian]
    omega
  read := by
    rintro as bs rest ⟨body, hi, rfl⟩ hlen
    rw [List.length_append] at hlen
    have hle := h.length_le hi
    have hword : word 8 (putNat as.length ++ (body ++ rest)) = .ok (as.length, body ++ rest) :=
      word_append (by omega) _
    rw [List.append_assoc, Binary.list, bind_of_ok hword, h.items hi rest (by omega)]

/-! ## Bytes, numbers and texts -/

theorem reads_bytes : (written putBytes).Reads Binary.bytes where
  pos := by
    rintro as bs rfl
    rw [putBytes, List.length_append, putNat, length_littleEndian]
    omega
  read := by
    rintro as bs rest rfl hlen
    rw [putBytes, List.length_append] at hlen
    have hword : word 8 (putNat as.length ++ (as ++ rest)) = .ok (as.length, as ++ rest) :=
      word_append (by omega) _
    rw [putBytes, List.append_assoc, Binary.bytes, bind_of_ok hword, take_append]

theorem reads_text : (written putText).Reads Binary.text where
  pos s bs h := reads_bytes.pos (Text.Utf8.encode s) bs h
  read := by
    rintro s bs rest rfl hlen
    obtain ⟨as, has⟩ : ∃ as, as = Text.Utf8.encode s := ⟨_, rfl⟩
    rw [putText, ← has, putBytes, List.length_append] at hlen
    have hword : word 8 (putNat as.length ++ (as ++ rest)) = .ok (as.length, as ++ rest) :=
      word_append (by omega) _
    have htake : takeOr .endOfText as.length (as ++ rest) = .ok (as, rest) := by
      rw [takeOr, splitExactly_append]
    rw [putText, ← has, putBytes, List.append_assoc, Binary.text, bind_of_ok hword,
      bind_of_ok htake, has, Text.Utf8.decode_encode]
    rfl

end Spelling

end TripleStore.Binary
