import TripleStore.Dictionary
import TripleStore.Proofs.Outcome

/-!
# What the dictionary knows

A dictionary is sound if each term is kept under its own checksum and each key is
the key of its term, whose checksum is known.  Registering keeps a dictionary
sound and never takes a term away.

In a sound dictionary the key of a term does not depend on what was registered
before: it is `Key.ofUri`, or there is none because of a collision.  The keys of
registered terms lead back to them, so no two of these have the same key.

A batch fails only while it is staged, before anything is entered: a term of the
batch has the checksum of another one that is known or is in the batch too.
-/

namespace TripleStore

namespace Dictionary

/-- Terms are kept under their checksums, and keys are the keys of known terms. -/
structure Sound (d : Dictionary) : Prop where
  /-- A term has the checksum it is kept under. -/
  checksum : ∀ h u, d.terms[h]? = some u → Dictionary.checksum u = h
  /-- A key is the key of its term, which is known. -/
  key : ∀ g u k, d.key? g u = some k →
    k = Key.ofUri g u 0 ∧ d.terms[Dictionary.checksum u]? = some u

/-- The checksum of a term belongs to it. -/
def Knows (d : Dictionary) (u : Uri) : Prop := d.terms[Dictionary.checksum u]? = some u

/-- A dictionary has all terms of another one. -/
def Extends (d' d : Dictionary) : Prop :=
  ∀ (hash : UInt32) (u : Uri), d.terms[hash]? = some u → d'.terms[hash]? = some u

variable {d d' d'' : Dictionary} {g graph : String} {u w : Uri} {k : Key} {v : UInt64}

theorem sound_empty : Dictionary.empty.Sound := by
  refine ⟨fun h u hu => ?_, fun g u k hk => ?_⟩
  · simp [Dictionary.empty] at hu
  · simp [Dictionary.empty, key?] at hk

theorem Extends.refl (d : Dictionary) : d.Extends d := fun _ _ h => h

theorem Extends.trans (h' : d''.Extends d') (h : d'.Extends d) : d''.Extends d :=
  fun hash u hu => h' hash u (h hash u hu)

theorem Extends.knows (h : d'.Extends d) (hu : d.Knows u) : d'.Knows u := h _ u hu

/-- A key leads back to the same term in a dictionary with more terms. -/
theorem Extends.term_unique (h : d'.Extends d) (hu : d.term k = .ok u) (hw : d'.term k = .ok w) :
    u = w := by
  rw [term, term?] at hu hw
  cases hterm : d.terms[k.name]? with
  | none =>
    rw [hterm] at hu
    cases hu
  | some u' =>
    rw [hterm] at hu
    rw [h _ u' hterm] at hw
    exact Except.ok.inj (hu.symm.trans hw)

/-! ## Looking up -/

theorem checkFree_eq_ok {terms : Std.ExtTreeMap UInt32 Uri compare} {hash : UInt32} :
    checkFree terms hash u = .ok () ↔ ∀ w, terms[hash]? = some w → w = u := by
  rw [checkFree]
  cases ht : terms[hash]? with
  | none => simp
  | some w =>
    by_cases heq : w = u
    · simp [heq]
    · simp [heq]

/-- The key of a term does not depend on what is registered. -/
theorem Sound.keyFor_eq (h : d.Sound) (hk : d.keyFor graph u v = .ok k) :
    k = Key.ofUri graph u v := by
  rw [keyFor] at hk
  split at hk
  · next k' hk' =>
    obtain ⟨rfl, -⟩ := h.key graph u k' hk'
    exact (Except.ok.inj hk).symm
  · obtain ⟨-, -, hk⟩ := bind_eq_ok.mp hk
    exact (Except.ok.inj hk).symm

/-- The keys of a known term lead back to it. -/
theorem Knows.term_ofUri (hu : d.Knows u) : d.term (Key.ofUri graph u v) = .ok u := by
  have hterm : d.term? (Key.ofUri graph u v) = some u := hu
  rw [term, hterm]

/-- Known terms are told apart by their keys. -/
theorem Knows.eq_of_ofUri_eq (hu : d.Knows u) (hw : d.Knows w)
    (h : Key.ofUri graph u v = Key.ofUri graph w v) : u = w := by
  have hname : Dictionary.checksum u = Dictionary.checksum w := congrArg Key.name h
  rw [Knows] at hu hw
  rw [hname] at hu
  exact Option.some.inj (hu.symm.trans hw)

/-! ## Registering -/

theorem key?_enter {g' : String} {u' : Uri} :
    (d.enter g u k).key? g' u' = if g = g' ∧ u = u' then some k else d.key? g' u' := by
  simp only [key?, enter]
  simp only [Std.ExtTreeMap.getElem?_alter, Std.LawfulEqOrd.compare_eq_iff_eq]
  by_cases hg : g = g'
  · subst hg
    simp only [if_true, Option.bind_some, true_and, Std.ExtTreeMap.getElem?_insert,
      Std.LawfulEqOrd.compare_eq_iff_eq]
    by_cases hu : u = u'
    · simp [hu]
    · cases d.keys[g]? <;> simp [hu]
  · simp [hg]

theorem terms_enter {hash : UInt32} :
    (d.enter g u k).terms[hash]? = if k.name = hash then some u else d.terms[hash]? := by
  rw [enter]
  simp only [Std.ExtTreeMap.getElem?_insert, Std.LawfulEqOrd.compare_eq_iff_eq]

/-- A term is entered under a checksum that is free or its own. -/
theorem Sound.enter (h : d.Sound)
    (hfree : ∀ w, d.terms[Dictionary.checksum u]? = some w → w = u) :
    (d.enter g u (Key.ofUri g u 0)).Sound ∧ (d.enter g u (Key.ofUri g u 0)).Extends d ∧
      (d.enter g u (Key.ofUri g u 0)).Knows u := by
  have hext : (d.enter g u (Key.ofUri g u 0)).Extends d := by
    intro hash w hw
    rw [terms_enter]
    split
    · next heq =>
      have heq : Dictionary.checksum u = hash := heq
      rw [hfree w (heq ▸ hw)]
    · exact hw
  have hknows : (d.enter g u (Key.ofUri g u 0)).Knows u := by
    rw [Knows]
    rw [terms_enter]
    exact if_pos rfl
  refine ⟨⟨fun hash w hw => ?_, fun g' u' k' hk' => ?_⟩, hext, hknows⟩
  · rw [terms_enter] at hw
    split at hw
    · next heq => exact Option.some.inj hw ▸ heq
    · exact h.checksum hash w hw
  · rw [key?_enter] at hk'
    split at hk'
    · next heq =>
      obtain ⟨rfl, rfl⟩ := heq
      exact ⟨(Option.some.inj hk').symm, hknows⟩
    · obtain ⟨hk, hu⟩ := h.key g' u' k' hk'
      exact ⟨hk, hext _ _ hu⟩

theorem Sound.register (h : d.Sound) (hr : d.register g u = .ok (k, d')) :
    d'.Sound ∧ d'.Extends d ∧ d'.Knows u := by
  rw [Dictionary.register] at hr
  split at hr
  · next k' hk' =>
    obtain ⟨rfl, rfl⟩ := Prod.mk.inj (Except.ok.inj hr)
    exact ⟨h, .refl d, (h.key g u k' hk').2⟩
  · obtain ⟨⟨⟩, hfree, hr⟩ := bind_eq_ok.mp hr
    obtain ⟨rfl, rfl⟩ := Prod.mk.inj (Except.ok.inj hr)
    exact h.enter (checkFree_eq_ok.mp hfree)

theorem Sound.registerEach {us : List Uri} (h : d.Sound)
    (hr : d.registerEach g us = .ok d') :
    d'.Sound ∧ d'.Extends d ∧ ∀ u ∈ us, d'.Knows u := by
  induction us generalizing d with
  | nil =>
    obtain rfl := Except.ok.inj hr
    exact ⟨h, .refl d, List.forall_mem_nil _⟩
  | cons u us ih =>
    rw [Dictionary.registerEach] at hr
    obtain ⟨⟨k, d₁⟩, hone, hr⟩ := bind_eq_ok.mp hr
    obtain ⟨h₁, hext, hu⟩ := h.register hone
    obtain ⟨h', hext', hus⟩ := ih h₁ hr
    exact ⟨h', hext'.trans hext, List.forall_mem_cons.mpr ⟨hext'.knows hu, hus⟩⟩

/-- All terms of a batch are staged, each under its checksum. -/
theorem stage_spec {staged staged' : Std.ExtTreeMap UInt32 Uri compare} {us : List Uri}
    (h : stage d staged us = .ok staged') :
    (∀ (hash : UInt32) (w : Uri), staged[hash]? = some w → staged'[hash]? = some w) ∧
      ∀ u ∈ us, staged'[Dictionary.checksum u]? = some u := by
  induction us generalizing staged with
  | nil =>
    obtain rfl := Except.ok.inj h
    exact ⟨fun _ _ h => h, List.forall_mem_nil _⟩
  | cons u us ih =>
    rw [stage] at h
    obtain ⟨-, -, h⟩ := bind_eq_ok.mp h
    obtain ⟨⟨⟩, hfree, h⟩ := bind_eq_ok.mp h
    have hfree := checkFree_eq_ok.mp hfree
    obtain ⟨hkeep, hus⟩ := ih h
    refine ⟨fun hash w hw => hkeep hash w ?_, List.forall_mem_cons.mpr ⟨hkeep _ u ?_, hus⟩⟩
    · rw [Std.ExtTreeMap.getElem?_insert]
      split
      · next heq =>
        have heq := Std.LawfulEqOrd.compare_eq_iff_eq.mp heq
        rw [hfree w (heq ▸ hw)]
      · exact hw
    · exact Std.ExtTreeMap.getElem?_insert_self

/-- A batch that is registered is known. -/
theorem Sound.registerAll {us : List Uri} (h : d.Sound) (hr : d.registerAll g us = .ok d') :
    d'.Sound ∧ d'.Extends d ∧ ∀ u ∈ us, d'.Knows u := by
  obtain ⟨staged, hstage, hr⟩ := bind_eq_ok.mp hr
  obtain ⟨-, hstaged⟩ := stage_spec hstage
  obtain ⟨h', hext, hknows⟩ := h.registerEach hr
  refine ⟨h', hext, fun u hu => hknows u ?_⟩
  have hmem := Std.ExtTreeMap.mem_toList_iff_getElem?_eq_some.mpr (hstaged u hu)
  exact List.mem_map.mpr ⟨_, hmem, rfl⟩

/-! ## Failing -/

theorem checkFree_eq_error {terms : Std.ExtTreeMap UInt32 Uri compare} {hash : UInt32}
    {f : Fault} :
    checkFree terms hash u = .error f ↔
      ∃ w, terms[hash]? = some w ∧ w ≠ u ∧ f = .collision w u := by
  rw [checkFree]
  cases terms[hash]? with
  | none => simp
  | some w =>
    by_cases heq : w = u
    · simp [heq]
    · simp only [heq, if_false, Except.error.injEq, Option.some.injEq, exists_eq_left', ne_eq,
        not_false_eq_true, true_and]
      exact eq_comm

/-- A known term has a key in every graph. -/
theorem Knows.exists_keyFor (hu : d.Knows u) : ∃ k, d.keyFor graph u v = .ok k := by
  rw [keyFor]
  cases d.key? graph u with
  | some k => exact ⟨_, rfl⟩
  | none =>
    have hfree : checkFree d.terms (Key.ofUri graph u v).name u = .ok () := by
      refine checkFree_eq_ok.mpr fun w hw => ?_
      exact Option.some.inj (hw.symm.trans hu)
    exact ⟨_, bind_eq_ok.mpr ⟨(), hfree, rfl⟩⟩

/-- Two terms collide: they are different and have the same checksum. -/
structure Collide (known incoming : Uri) : Prop where
  /-- They are different. -/
  ne : known ≠ incoming
  /-- They have the same checksum. -/
  checksum : Dictionary.checksum known = Dictionary.checksum incoming

/-- Staging fails only if terms collide. -/
theorem stage_eq_error {staged : Std.ExtTreeMap UInt32 Uri compare} {us : List Uri} {f : Fault}
    (hd : d.Sound) (hstaged : ∀ h u, staged[h]? = some u → Dictionary.checksum u = h)
    (h : stage d staged us = .error f) :
    ∃ known incoming, f = .collision known incoming ∧ Collide known incoming := by
  induction us generalizing staged with
  | nil => cases h
  | cons u us ih =>
    rw [stage] at h
    rcases bind_eq_error.mp h with h | ⟨⟨⟩, -, h⟩
    · obtain ⟨w, hw, hne, rfl⟩ := checkFree_eq_error.mp h
      exact ⟨w, u, rfl, hne, hd.checksum _ w hw⟩
    rcases bind_eq_error.mp h with h | ⟨⟨⟩, -, h⟩
    · obtain ⟨w, hw, hne, rfl⟩ := checkFree_eq_error.mp h
      exact ⟨w, u, rfl, hne, hstaged _ w hw⟩
    · refine ih (fun hash w hw => ?_) h
      rw [Std.ExtTreeMap.getElem?_insert] at hw
      split at hw
      · next heq =>
        cases hw
        exact Std.LawfulEqOrd.compare_eq_iff_eq.mp heq
      · exact hstaged hash w hw

/-- What is staged is free in the dictionary and kept under its checksum. -/
theorem stage_free {staged staged' : Std.ExtTreeMap UInt32 Uri compare} {us : List Uri}
    (hstaged : ∀ h u, staged[h]? = some u →
      Dictionary.checksum u = h ∧ ∀ w, d.terms[h]? = some w → w = u)
    (h : stage d staged us = .ok staged') :
    ∀ h u, staged'[h]? = some u →
      Dictionary.checksum u = h ∧ ∀ w, d.terms[h]? = some w → w = u := by
  induction us generalizing staged with
  | nil =>
    cases h
    exact hstaged
  | cons u us ih =>
    rw [stage] at h
    obtain ⟨⟨⟩, hfree, h⟩ := bind_eq_ok.mp h
    obtain ⟨⟨⟩, -, h⟩ := bind_eq_ok.mp h
    refine ih (fun hash w hw => ?_) h
    rw [Std.ExtTreeMap.getElem?_insert] at hw
    split at hw
    · next heq =>
      cases hw
      obtain rfl := Std.LawfulEqOrd.compare_eq_iff_eq.mp heq
      exact ⟨rfl, checkFree_eq_ok.mp hfree⟩
    · exact hstaged hash w hw

/-- Terms that are free and have different checksums are registered, in whatever order. -/
theorem exists_registerEach {us : List Uri}
    (hfree : ∀ u ∈ us, ∀ w, d.terms[Dictionary.checksum u]? = some w → w = u)
    (hdiff : us.Pairwise fun u w => Dictionary.checksum u ≠ Dictionary.checksum w) :
    ∃ d', d.registerEach g us = .ok d' := by
  induction us generalizing d with
  | nil => exact ⟨d, rfl⟩
  | cons u us ih =>
    obtain ⟨hu, hfree⟩ := List.forall_mem_cons.mp hfree
    obtain ⟨hne, hdiff⟩ := List.pairwise_cons.mp hdiff
    rw [Dictionary.registerEach, Dictionary.register]
    cases d.key? g u with
    | some k => exact ih hfree hdiff
    | none =>
      obtain ⟨d', hd'⟩ : ∃ d', (d.enter g u (Key.ofUri g u 0)).registerEach g us = .ok d' := by
        refine ih (fun w hw w' hw' => ?_) hdiff
        have hother : (Key.ofUri g u 0).name ≠ Dictionary.checksum w := hne w hw
        rw [terms_enter, if_neg hother] at hw'
        exact hfree w hw w' hw'
      refine ⟨d', bind_eq_ok.mpr ⟨(Key.ofUri g u 0, d.enter g u (Key.ofUri g u 0)), ?_, hd'⟩⟩
      exact bind_eq_ok.mpr ⟨(), checkFree_eq_ok.mpr hu, rfl⟩

/-- The staged terms can be entered: they are free and have different checksums. -/
theorem staged_values {staged : Std.ExtTreeMap UInt32 Uri compare} {us : List Uri}
    (h : stage d ∅ us = .ok staged) :
    (∀ u ∈ staged.toList.map (·.2), ∀ w, d.terms[Dictionary.checksum u]? = some w → w = u) ∧
      (staged.toList.map (·.2)).Pairwise fun u w =>
        Dictionary.checksum u ≠ Dictionary.checksum w := by
  have hstaged := stage_free (by simp) h
  have hentry : ∀ p ∈ staged.toList, staged[p.1]? = some p.2 :=
    fun p hp => Std.ExtTreeMap.mem_toList_iff_getElem?_eq_some.mp hp
  constructor
  · refine List.forall_mem_map.mpr fun p hp => ?_
    obtain ⟨hsum, hfree⟩ := hstaged p.1 p.2 (hentry p hp)
    exact hsum ▸ hfree
  · rw [List.pairwise_map]
    refine Std.ExtTreeMap.distinct_keys_toList.imp_of_mem fun {p q} hp hq hne heq => hne ?_
    rw [(hstaged p.1 p.2 (hentry p hp)).1, (hstaged q.1 q.2 (hentry q hq)).1] at heq
    exact Std.LawfulEqOrd.compare_eq_iff_eq.mpr heq

/-- A batch fails as its staging fails, which is before any of its terms is entered. -/
theorem registerAll_eq_error {us : List Uri} {f : Fault} :
    d.registerAll g us = .error f ↔ stage d ∅ us = .error f := by
  rw [Dictionary.registerAll, bind_eq_error]
  refine or_iff_left ?_
  rintro ⟨staged, hstage, hfail⟩
  obtain ⟨hfree, hdiff⟩ := staged_values hstage
  obtain ⟨d', hd'⟩ := exists_registerEach (g := g) hfree hdiff
  rw [hd'] at hfail
  cases hfail

end Dictionary

end TripleStore
