import TripleStore.Proofs.Inference

/-!
# Closing a closure

Rules are read off the statements that are given, so a closure is closed under the
rules of what it was made of.  It may hold rules that were not given, and these do
not count until it is closed once more.  So closing twice is closing once if and
only if the closure is closed under the rules it declares itself.

A closure gets new rules only from a rule that has `owl:inverseOf` on one side: it
turns statements of another property into rules.  If no such rule is given, the
rules of the closure are the given ones, some of them the other way round, and these
say the same.
-/

namespace TripleStore

namespace Inference

open InverseRule

variable {ts us : List Triple} {S S' : Set Triple} {t : Triple} {p q u : Uri}

/-! ## What a closure holds -/

/-- The closure is what was given, each statement once, and what the queue finds. -/
theorem close_eq_drain (ts : List Triple) :
    close ts = (fresh ∅ ts).1 ++ drain (ofTriples ts) (fresh ∅ ts).1 (fresh ∅ ts).2 :=
  (closeQueue_eq_close ts).symm

theorem mem_given : t ∈ (fresh ∅ ts).1 ↔ t ∈ ts := by simp [mem_fresh]

theorem mem_given_seen : t ∈ (fresh ∅ ts).2 ↔ t ∈ ts := by simp [mem_fresh_seen]

theorem nodup_close (ts : List Triple) : (close ts).Nodup := by
  obtain ⟨hnd, hnew⟩ := nodup_drain (ofTriples ts) (fresh ∅ ts).1 (fresh ∅ ts).2
  rw [close_eq_drain]
  refine List.nodup_append'.mpr ⟨nodup_fresh _ _, hnd, fun t ht ht' => ?_⟩
  exact hnew t ht' (mem_given_seen.mpr (mem_given.mp ht))

/-- A closure is closed under the rules of what was given. -/
theorem closed_close (ts : List Triple) : Closed ts {t | t ∈ close ts} := by
  refine closed_iff.mpr ⟨fun t ht => mem_close_of_mem ht, fun t ht u hu => ?_⟩
  rw [Set.mem_ofPred_eq, close_eq_drain] at ht ⊢
  have hfound := drain_complete (ofTriples ts) _ (fresh ∅ ts).2 t ht u hu
  exact List.mem_append.mpr (hfound.imp_left fun hu => mem_given.mpr (mem_given_seen.mp hu))

/-- A closure is in every set that is closed under the rules of what was given. -/
theorem close_subset (hS : Closed ts S) : ∀ t ∈ close ts, t ∈ S := by
  obtain ⟨hgiven, hrules⟩ := closed_iff.mp hS
  have hinit : ∀ t ∈ (fresh ∅ ts).1, t ∈ S := fun t ht => hgiven t (mem_given.mp ht)
  rw [close_eq_drain]
  exact List.forall_mem_append.mpr ⟨hinit, drain_subset hrules hinit⟩

/-- What is closed depends on which statements are given and not on their order. -/
theorem Closed.congr (h : Closed ts S) (hts : ∀ t, t ∈ ts ↔ t ∈ us) (hS : ∀ t, t ∈ S ↔ t ∈ S') :
    Closed us S' where
  given t ht := (hS t).mp (h.given t ((hts t).mpr ht))
  forward p q s o hrule ht := (hS _).mp (h.forward p q s o ((hts _).mpr hrule) ((hS _).mpr ht))
  backward p q s o hrule ht := (hS _).mp (h.backward p q s o ((hts _).mpr hrule) ((hS _).mpr ht))

theorem mem_close_congr (h : ∀ t, t ∈ ts ↔ t ∈ us) : t ∈ close ts ↔ t ∈ close us := by
  constructor
  · exact close_subset ((closed_close us).congr (fun t => (h t).symm) fun _ => Iff.rfl) t
  · exact close_subset ((closed_close ts).congr h fun _ => Iff.rfl) t

/-- Nothing follows from statements if they are closed under their own rules, and only then. -/
theorem mem_close_iff : (∀ t, t ∈ close ts ↔ t ∈ ts) ↔ Closed ts {t | t ∈ ts} := by
  constructor
  · intro h
    exact (closed_close ts).congr (fun _ => Iff.rfl) h
  · intro h t
    exact ⟨close_subset h t, mem_close_of_mem⟩

/-- What follows has the terms of what was given: the predicate is a side of a rule. -/
theorem exists_of_mem_close (ht : t ∈ close ts) (hu : u ∈ t.terms) :
    ∃ s ∈ ts, u ∈ s.terms := by
  refine close_subset (S := {t | ∀ u ∈ t.terms, ∃ s ∈ ts, u ∈ s.terms}) ?_ t ht u hu
  refine ⟨fun t ht u hu => ⟨t, ht, hu⟩, fun p q s o hrule h => ?_, fun p q s o hrule h => ?_⟩
  · have hq : ∃ s ∈ ts, q ∈ s.terms := ⟨_, hrule, by simp [Triple.terms]⟩
    simp only [Triple.terms, Set.mem_ofPred_eq, List.forall_mem_cons] at h ⊢
    exact ⟨h.2.2.1, hq, h.1, h.2.2.2⟩
  · have hp : ∃ s ∈ ts, p ∈ s.terms := ⟨_, hrule, by simp [Triple.terms]⟩
    simp only [Triple.terms, Set.mem_ofPred_eq, List.forall_mem_cons] at h ⊢
    exact ⟨h.2.2.1, hp, h.1, h.2.2.2⟩

/-! ## Closing twice -/

/-- All statements of a list are fresh if none was seen and none occurs twice. -/
theorem fresh_eq_self {seen : Triples} (hnd : ts.Nodup) (hnew : ∀ t ∈ ts, t ∉ seen) :
    (fresh seen ts).1 = ts := by
  fun_induction fresh seen ts with
  | case1 => rfl
  | case2 seen t ts ht ih => exact absurd ht (hnew t List.mem_cons_self)
  | case3 seen t ts ht news seen' hnews ih =>
    rw [hnews] at ih
    obtain ⟨hfirst, hnd⟩ := List.nodup_cons.mp hnd
    refine congrArg (t :: ·) (ih hnd fun u hu => ?_)
    rw [Std.ExtTreeSet.mem_insert, Std.LawfulEqOrd.compare_eq_iff_eq, not_or]
    exact ⟨fun heq => hfirst (heq ▸ hu), hnew u (List.mem_cons_of_mem _ hu)⟩

/-- Statements that are closed under their own rules, each once, are their own closure. -/
theorem close_eq_self (hnd : ts.Nodup) (h : Closed ts {t | t ∈ ts}) : close ts = ts := by
  have hnone : drain (ofTriples ts) (fresh ∅ ts).1 (fresh ∅ ts).2 = [] := by
    refine List.eq_nil_iff_forall_not_mem.mpr fun t ht => ?_
    have hclose : t ∈ close ts := by
      rw [close_eq_drain]
      exact List.mem_append_right _ ht
    exact (nodup_drain _ _ _).2 t ht (mem_given_seen.mpr (close_subset h t hclose))
  rw [close_eq_drain, hnone, List.append_nil, fresh_eq_self hnd (by simp)]

/-- Closing twice is closing once if the closure is closed under its own rules, and only then. -/
theorem close_close_iff (ts : List Triple) :
    close (close ts) = close ts ↔ Closed (close ts) {t | t ∈ close ts} := by
  constructor
  · intro h
    have hclosed := closed_close (close ts)
    rwa [h] at hclosed
  · exact close_eq_self (nodup_close ts)

/-- The property `p` is an inverse of `owl:inverseOf`, so `x p y` makes `y` an inverse of `x`. -/
def twisted : List Triple :=
  [⟨Uri.owlInverseOf, Uri.owlInverseOf, ⟨"", "p"⟩⟩, ⟨⟨"", "x"⟩, ⟨"", "p"⟩, ⟨"", "y"⟩⟩,
    ⟨⟨"", "a"⟩, ⟨"", "y"⟩, ⟨"", "b"⟩⟩]

/-- That `y` is an inverse of `x` only follows, so it is no rule the first time. -/
theorem mem_close_close_twisted :
    ⟨⟨"", "b"⟩, ⟨"", "x"⟩, ⟨"", "a"⟩⟩ ∈ close (close twisted) ∧
      ⟨⟨"", "b"⟩, ⟨"", "x"⟩, ⟨"", "a"⟩⟩ ∉ close twisted := by
  decide +kernel

/-! ## Rules of closures -/

/-- No other property is declared to be an inverse of `owl:inverseOf`. -/
def InverseApart (ts : List Triple) : Prop :=
  ∀ t ∈ ts, t.predicate = Uri.owlInverseOf →
    (t.subject = Uri.owlInverseOf ↔ t.object = Uri.owlInverseOf)

instance : DecidablePred InverseApart := fun ts => by
  unfold InverseApart
  infer_instance

/-- A rule of the closure was given, or the other way round. -/
theorem InverseApart.given (h : InverseApart ts) (hrule : ⟨p, Uri.owlInverseOf, q⟩ ∈ close ts) :
    ⟨p, Uri.owlInverseOf, q⟩ ∈ ts ∨ ⟨q, Uri.owlInverseOf, p⟩ ∈ ts := by
  have hclosed : Closed ts {t | t.predicate = Uri.owlInverseOf →
      ⟨t.subject, Uri.owlInverseOf, t.object⟩ ∈ ts ∨
        ⟨t.object, Uri.owlInverseOf, t.subject⟩ ∈ ts} := by
    refine ⟨fun t ht hp => .inl (hp ▸ ht), ?_, ?_⟩
    · rintro p q s o hr hs rfl
      exact (hs ((h _ hr rfl).mpr rfl)).symm
    · rintro p q s o hr hs rfl
      exact (hs ((h _ hr rfl).mp rfl)).symm
  exact close_subset hclosed _ hrule rfl

/-- If no other property is an inverse of `owl:inverseOf`, the closure is closed under its own
rules. -/
theorem InverseApart.closed (h : InverseApart ts) : Closed (close ts) {t | t ∈ close ts} := by
  have hclose := closed_close ts
  refine ⟨fun _ ht => ht, fun p q s o hrule ht => ?_, fun p q s o hrule ht => ?_⟩
  · rcases h.given hrule with hrule | hrule
    · exact hclose.forward p q s o hrule ht
    · exact hclose.backward q p s o hrule ht
  · rcases h.given hrule with hrule | hrule
    · exact hclose.backward p q s o hrule ht
    · exact hclose.forward q p s o hrule ht

end Inference

end TripleStore
