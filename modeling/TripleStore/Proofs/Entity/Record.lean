import TripleStore.Entity.Record
import TripleStore.Proofs.Binary.Canonical
import TripleStore.Proofs.Key

/-!
# Records have one form

The records of entities are a canonical codec.  An entity is decoded from its
record and from any bytes that start with it, and from no others.  Bytes that
break off before a record ends are not taken for another entity.

A list has a length of eight bytes, so entities are recordable if no list of
theirs is longer than that.  Whatever is decoded is recordable.
-/

namespace TripleStore

open Binary

theorem Key.canonical : Canonical (fun _ : Key => True) Key.bytes Key.decode := by
  have hbytes : Canonical (fun _ : Key => True) (fun k => id k.bytes ++ []) Key.decode := by
    refine (Canonical.take Key.size).field _ (fun k _ => Key.length_bytes k) fun bs hbs =>
      .give fun k => ?_
    constructor
    · rintro ⟨-, rfl⟩
      exact (Key.ofBytes_bytes k).symm
    · rintro rfl
      exact ⟨trivial, Key.bytes_ofBytes hbs⟩
  exact hbytes.congr (fun _ => Iff.rfl) fun _ => (List.append_nil _).symm

theorem Quantifier.toNat_lt (q : Quantifier) : q.toNat < capacity 4 := by
  cases q with
  | single => decide
  | zeroOne => decide
  | onePlus => decide
  | zeroPlus => decide

theorem Quantifier.canonical : Canonical (fun _ : Quantifier => True)
    (fun q => littleEndian 4 q.toNat) Quantifier.decode := by
  have hnumber : Canonical (fun _ : Quantifier => True)
      (fun q => littleEndian 4 q.toNat ++ []) Quantifier.decode := by
    refine (Canonical.word 4).field _ (fun q _ => q.toNat_lt) fun n _ => ?_
    cases hn : Quantifier.ofNat? n with
    | some q =>
      refine .give fun p => ?_
      rw [true_and, ← Quantifier.toNat_of_ofNat? hn]
      exact ⟨Quantifier.toNat_inj, fun h => h ▸ rfl⟩
    | none =>
      -- no quantifier has this number
      have hno : ∀ q : Quantifier, ¬ (True ∧ q.toNat = n) := by
        rintro q ⟨-, rfl⟩
        rw [Quantifier.ofNat?_toNat] at hn
        cases hn
      exact ⟨fun q _ hq => absurd hq (hno q), fun _ _ _ h => (nomatch h),
        fun q _ hq => absurd hq (hno q)⟩
  exact hnumber.congr (fun _ => Iff.rfl) fun _ => (List.append_nil _).symm

theorem Edge.canonical : Canonical (fun _ : Edge => True) Edge.encode Edge.decode := by
  refine Canonical.congr (Key.canonical.field Edge.predicate (fun _ _ => trivial) fun p _ =>
    Key.canonical.field Edge.value (fun _ _ => trivial) fun v _ =>
    Quantifier.canonical.field Edge.quantifier (fun _ _ => trivial) fun q _ =>
    .give fun e => ?_) (fun _ => Iff.rfl) fun e => ?_
  · simp [Edge.ext_iff, and_assoc]
  · simp [Edge.encode]

theorem Endpoint.canonical :
    Canonical (fun _ : Endpoint => True) Endpoint.encode Endpoint.decode := by
  refine Canonical.congr (Key.canonical.field Endpoint.subject (fun _ _ => trivial) fun s _ =>
    Key.canonical.field Endpoint.object (fun _ _ => trivial) fun o _ =>
    .give fun e => ?_) (fun _ => Iff.rfl) fun e => ?_
  · simp [Endpoint.ext_iff]
  · simp [Endpoint.encode]

namespace Entity

/-- The lists of an entity are not too long for a record. -/
structure Recordable (e : Entity) : Prop where
  /-- The outgoing edges are not. -/
  outgoing : e.outgoing.length < capacity 8
  /-- The incoming edges are not. -/
  incoming : e.incoming.length < capacity 8
  /-- The endpoints are not. -/
  endpoints : e.endpoints.length < capacity 8

variable {e : Entity} {bs : List UInt8}

theorem canonical : Canonical Recordable encode decoder := by
  refine Canonical.congr (Key.canonical.field Entity.key (fun _ _ => trivial) fun k _ =>
    Edge.canonical.list.field Entity.outgoing (fun e h => ⟨h.1.outgoing, fun _ _ => trivial⟩)
      fun out hout =>
    Edge.canonical.list.field Entity.incoming (fun e h => ⟨h.1.1.incoming, fun _ _ => trivial⟩)
      fun inc hinc =>
    Endpoint.canonical.list.field Entity.endpoints
      (fun e h => ⟨h.1.1.1.endpoints, fun _ _ => trivial⟩) fun ends hends =>
    .give fun e => ?_) (fun _ => Iff.rfl) fun e => ?_
  · constructor
    · rintro ⟨⟨⟨⟨-, rfl⟩, rfl⟩, rfl⟩, rfl⟩
      rfl
    · rintro rfl
      exact ⟨⟨⟨⟨⟨hout.1, hinc.1, hends.1⟩, rfl⟩, rfl⟩, rfl⟩, rfl⟩
  · simp [encode]

theorem decode_of_run {rest : List UInt8} (h : decoder bs = .ok (e, rest)) : decode bs = .ok e := by
  rw [decode, Binary.decode, StateT.run, h]
  rfl

theorem decode_of_run_error {f : Binary.Fault} (h : decoder bs = .error f) :
    decode bs = .error (.badRecord f) := by
  rw [decode, Binary.decode, StateT.run, h]
  rfl

/-- Bytes hold an entity if they start with its record. -/
theorem decode_eq_ok_iff : decode bs = .ok e ↔ e.Recordable ∧ e.encode <+: bs := by
  constructor
  · intro h
    cases hrun : decoder bs with
    | error f =>
      rw [decode_of_run_error hrun] at h
      cases h
    | ok p =>
      rw [decode_of_run hrun] at h
      obtain rfl := Except.ok.inj h
      obtain ⟨he, hbs⟩ := canonical.written bs p.1 p.2 hrun
      exact ⟨he, p.2, hbs.symm⟩
  · rintro ⟨he, rest, rfl⟩
    exact decode_of_run (canonical.read e rest he)

/-- A record is decoded to the entity it was made of. -/
theorem decode_encode (h : e.Recordable) : decode e.encode = .ok e :=
  decode_eq_ok_iff.mpr ⟨h, List.prefix_rfl⟩

/-- An entity is decoded from its record and whatever follows it.  It is decoded from nothing
else, and a record that breaks off is a fault of serialization. -/
theorem decode_canonical :
    (∀ (e : Entity) (rest : List UInt8), e.Recordable → decode (e.encode ++ rest) = .ok e) ∧
      (∀ (bs : List UInt8) (e : Entity), decode bs = .ok e → e.encode <+: bs) ∧
      ∀ (e : Entity) (bs : List UInt8), e.Recordable → bs <+: e.encode → bs ≠ e.encode →
        ∃ f, decode bs = .error f ∧ f = .badRecord .endOfInput ∧ f.kind = .serialization := by
  refine ⟨fun e rest he => ?_, fun bs e hbs => ?_, fun e bs he hpre hne => ?_⟩
  · exact decode_eq_ok_iff.mpr ⟨he, List.prefix_append _ _⟩
  · exact (decode_eq_ok_iff.mp hbs).2
  · exact ⟨_, decode_of_run_error (canonical.cut e bs he hpre hne), rfl, rfl⟩

/-- A predicate with a statement and a shortcut of its own. -/
def restless : Entity where
  key := ⟨1, 2, 3⟩
  outgoing := [⟨⟨1, 2, 3⟩, ⟨1, 4, 3⟩, .single⟩, ⟨⟨1, 2, 3⟩, ⟨1, 5, 3⟩, .onePlus⟩]
  incoming := []
  endpoints := [⟨⟨1, 2, 3⟩, ⟨1, 4, 3⟩⟩]

theorem decode_canonical_restless :
    restless.Recordable ∧ decode (restless.encode ++ [7]) = .ok restless ∧
      (restless.encode.take 60 ≠ restless.encode ∧
        ∃ f, decode (restless.encode.take 60) = .error f ∧ f.kind = .serialization) := by
  have hfits : restless.Recordable := ⟨by decide, by decide, by decide⟩
  have hshort : restless.encode.take 60 ≠ restless.encode := by decide +kernel
  obtain ⟨hread, -, hcut⟩ := decode_canonical
  obtain ⟨f, hf, -, hkind⟩ := hcut restless _ hfits (List.take_prefix _ _) hshort
  exact ⟨hfits, hread restless [7] hfits, hshort, f, hf, hkind⟩

end Entity

end TripleStore
