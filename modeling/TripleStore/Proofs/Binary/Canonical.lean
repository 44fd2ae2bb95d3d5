import TripleStore.Proofs.Binary
import TripleStore.Proofs.Binary.Number
import TripleStore.Proofs.Outcome

/-!
# Canonical codecs

A writer and a decoder are a canonical codec of some values if each of the values
has one form and no other bytes are decoded.  There are three laws.  What was
written is taken back, whatever follows it.  What is taken was written, so no
other bytes stand for the value.  And if the bytes end before the form of a value
does, the decoder fails for this reason.

The codec of a record is put together from those of its fields in the order in
which they are decoded (`Canonical.field`).  Each field may be followed by bytes
that depend on it, as the items of a list follow their number.
-/

namespace TripleStore.Binary

variable {α β : Type} {good P : α → Prop} {put : α → List UInt8} {d : Decoder α}

/-- A decoder takes the bytes that are written for some values, and no others. -/
structure Canonical (good : α → Prop) (put : α → List UInt8) (d : Decoder α) : Prop where
  /-- What was written is taken back, whatever follows it. -/
  read : ∀ a rest, good a → d (put a ++ rest) = .ok (a, rest)
  /-- What is taken was written. -/
  written : ∀ bs a rest, d bs = .ok (a, rest) → good a ∧ bs = put a ++ rest
  /-- The bytes of a value do not end early. -/
  cut : ∀ a bs, good a → bs <+: put a → bs ≠ put a → d bs = .error .endOfInput

/-- What two decoders in a row take. -/
theorem bind_eq_ok_iff {k : α → Decoder β} {bs rest : List UInt8} {b : β} :
    (d >>= k) bs = .ok (b, rest) ↔ ∃ a mid, d bs = .ok (a, mid) ∧ k a mid = .ok (b, rest) := by
  show (d bs >>= fun p => k p.1 p.2) = _ ↔ _
  rw [bind_eq_ok]
  exact Prod.exists

/-- The second decoder is left out if the first one fails. -/
theorem bind_of_error {k : α → Decoder β} {bs : List UInt8} {f : Fault} (h : d bs = .error f) :
    (d >>= k) bs = .error f := by
  show (d bs >>= fun p => k p.1 p.2) = _
  rw [h]
  rfl

namespace Canonical

/-! ## Rules -/

theorem congr {good' : α → Prop} {put' : α → List UInt8} (h : Canonical good put d)
    (hgood : ∀ a, good' a ↔ good a) (hput : ∀ a, put' a = put a) : Canonical good' put' d where
  read a rest ha := by
    rw [hput]
    exact h.read a rest ((hgood a).mp ha)
  written bs a rest hd := by
    rw [hput, hgood]
    exact h.written bs a rest hd
  cut a bs ha hpre hne := by
    rw [hput] at hpre hne
    exact h.cut a bs ((hgood a).mp ha) hpre hne

/-- A value that takes no bytes. -/
theorem give (h : ∀ b, good b ↔ b = a) : Canonical good (fun _ => []) (pure a : Decoder α) where
  read b rest hb := by
    rw [(h b).mp hb]
    rfl
  written bs b rest hd := by
    obtain ⟨rfl, rfl⟩ := Prod.mk.inj (Except.ok.inj hd)
    exact ⟨(h a).mpr rfl, rfl⟩
  cut b bs _ hpre hne := absurd (List.prefix_nil.mp hpre) hne

/-- A value is decoded by its first part and by what is left of it after that part. -/
theorem bind {k : α → Decoder β} {Q : α → β → Prop} {more : α → β → List UInt8}
    {whole : β → List UInt8} (hd : Canonical P put d)
    (hk : ∀ a, P a → Canonical (Q a) (more a) (k a))
    (hwhole : ∀ a b, P a → Q a b → whole b = put a ++ more a b) :
    Canonical (fun b => ∃ a, P a ∧ Q a b) whole (d >>= k) where
  read := by
    rintro b rest ⟨a, ha, hb⟩
    rw [hwhole a b ha hb, List.append_assoc, bind_of_ok (hd.read a _ ha)]
    exact (hk a ha).read b rest hb
  written bs b rest h := by
    obtain ⟨a, mid, hfirst, hmore⟩ := bind_eq_ok_iff.mp h
    obtain ⟨ha, rfl⟩ := hd.written bs a mid hfirst
    obtain ⟨hb, rfl⟩ := (hk a ha).written mid b rest hmore
    rw [hwhole a b ha hb, List.append_assoc]
    exact ⟨⟨a, ha, hb⟩, rfl⟩
  cut := by
    rintro b bs ⟨a, ha, hb⟩ hpre hne
    rw [hwhole a b ha hb] at hpre hne
    -- the bytes end in the first part, or they have all of it and end in the rest
    by_cases hfirst : put a <+: bs
    · obtain ⟨mid, rfl⟩ := hfirst
      rw [List.prefix_append_right_inj] at hpre
      have hmid : mid ≠ more a b := fun heq => hne (heq ▸ rfl)
      rw [bind_of_ok (hd.read a mid ha)]
      exact (hk a ha).cut b mid hb hpre hmid
    · have hshort : bs <+: put a :=
        (List.prefix_or_prefix_of_prefix hpre (List.prefix_append _ _)).resolve_right hfirst
      have hne : bs ≠ put a := fun heq => hfirst (heq ▸ List.prefix_refl _)
      exact bind_of_error (hd.cut a bs ha hshort hne)

/-- A value is decoded by one of its fields and by what is left of it when the field is known. -/
theorem field {k : α → Decoder β} {Q : β → Prop} {more : β → List UInt8} (f : β → α)
    (hd : Canonical P put d) (hfield : ∀ b, Q b → P (f b))
    (hk : ∀ a, P a → Canonical (fun b => Q b ∧ f b = a) more (k a)) :
    Canonical Q (fun b => put (f b) ++ more b) (d >>= k) := by
  have hbind : Canonical (fun b => ∃ a, P a ∧ Q b ∧ f b = a) (fun b => put (f b) ++ more b)
      (d >>= k) := hd.bind hk fun a b _ hb => by rw [hb.2]
  refine hbind.congr (fun b => ?_) fun _ => rfl
  constructor
  · intro hb
    exact ⟨f b, hfield b hb, hb, rfl⟩
  · rintro ⟨-, -, hb, -⟩
    exact hb

/-! ## Numbers and lists -/

theorem take (n : Nat) : Canonical (fun bs => bs.length = n) id (Binary.take n) where
  read := by
    rintro as rest rfl
    exact take_append as rest
  written bs as rest h := by
    rw [Binary.take, takeOr] at h
    split at h
    · next s hs =>
      obtain rfl := Except.ok.inj h
      exact eq_append_of_splitExactly hs
    · cases h
  cut := by
    rintro as bs rfl hpre hne
    have hlt : bs.length < as.length :=
      Nat.lt_of_le_of_ne hpre.length_le fun hlen => hne (hpre.eq_of_length hlen)
    have hnone : splitExactly as.length bs = none := by
      have htake : (bs.take as.length).length ≠ as.length := by
        rw [List.length_take]
        omega
      rw [splitExactly, if_neg htake]
    rw [Binary.take, takeOr, hnone]

theorem word (k : Nat) : Canonical (· < capacity k) (littleEndian k) (Binary.word k) := by
  have hbytes : Canonical (· < capacity k) (fun n => id (littleEndian k n) ++ [])
      (Binary.word k) := by
    refine (take k).field _ (fun n _ => length_littleEndian k n) fun bs hbs => give fun n => ?_
    constructor
    · rintro ⟨hn, rfl⟩
      rw [ofLittleEndian_littleEndian, Nat.mod_eq_of_lt hn]
    · rintro rfl
      subst hbs
      exact ⟨ofLittleEndian_lt bs, littleEndian_ofLittleEndian bs⟩
  exact hbytes.congr (fun _ => Iff.rfl) fun _ => (List.append_nil _).symm

/-- Items are decoded one after the other. -/
theorem items (h : Canonical good put d) (n : Nat) :
    Canonical (fun as : List α => as.length = n ∧ ∀ a ∈ as, good a) (List.flatMap put)
      (Binary.items d n) := by
  induction n with
  | zero =>
    have hnil : Canonical (fun as : List α => as = []) (fun _ => []) (Binary.items d 0) :=
      give fun _ => Iff.rfl
    refine ⟨fun as rest has => ?_, fun bs as rest has => ?_, fun as bs has hpre hne => ?_⟩
    · obtain rfl := List.length_eq_zero_iff.mp has.1
      exact hnil.read [] rest rfl
    · obtain ⟨rfl, rfl⟩ := hnil.written bs as rest has
      exact ⟨⟨rfl, List.forall_mem_nil _⟩, rfl⟩
    · obtain rfl := List.length_eq_zero_iff.mp has.1
      exact hnil.cut [] bs rfl hpre hne
  | succ n ih =>
    have hmore : ∀ a, good a → Canonical
        (fun as => ∃ rest : List α, (rest.length = n ∧ ∀ b ∈ rest, good b) ∧ as = a :: rest)
        (fun as => as.tail.flatMap put) (do
          let rest ← Binary.items d n
          return a :: rest) := by
      intro a _
      refine ih.bind (fun rest _ => give fun _ => Iff.rfl) ?_
      rintro rest as _ rfl
      rw [List.tail_cons, List.append_nil]
    refine (h.bind hmore ?_).congr (fun as => ?_) fun _ => rfl
    · rintro a as _ ⟨rest, -, rfl⟩
      rw [List.flatMap_cons, List.tail_cons]
    · constructor
      · rintro ⟨hlen, has⟩
        obtain ⟨a, rest, rfl⟩ := List.exists_cons_of_length_eq_add_one hlen
        obtain ⟨ha, hrest⟩ := List.forall_mem_cons.mp has
        exact ⟨a, ha, rest, ⟨Nat.succ.inj hlen, hrest⟩, rfl⟩
      · rintro ⟨a, ha, rest, ⟨rfl, hrest⟩, rfl⟩
        exact ⟨rfl, List.forall_mem_cons.mpr ⟨ha, hrest⟩⟩

theorem list (h : Canonical good put d) :
    Canonical (fun as : List α => as.length < capacity 8 ∧ ∀ a ∈ as, good a) (putList put)
      (Binary.list d) := by
  refine (word 8).field List.length (fun _ has => has.1) fun n hn => ?_
  refine (h.items n).congr (fun as => ?_) fun _ => rfl
  constructor
  · rintro ⟨⟨-, has⟩, hlen⟩
    exact ⟨hlen, has⟩
  · rintro ⟨rfl, has⟩
    exact ⟨⟨hn, has⟩, rfl⟩

end Canonical

end TripleStore.Binary
