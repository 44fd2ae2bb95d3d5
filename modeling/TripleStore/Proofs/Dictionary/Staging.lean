import TripleStore.Proofs.Registration

/-!
# Staging a batch

The terms of a batch are staged by checksum.  Each is staged under its own one, and
nothing else is staged.  So what is staged depends on which terms there are, and not
on how often and in which order they come, and the same goes for what is registered.
-/

namespace TripleStore

namespace Dictionary

variable {d d' : Dictionary} {graph : String} {us ws : List Uri} {u : Uri}
  {staged whole : Std.ExtTreeMap UInt32 Uri compare}

/-- A term is staged under its checksum. -/
theorem getElem?_stage (h : stage d ∅ us = .ok staged) {hash : UInt32} :
    staged[hash]? = some u ↔ u ∈ us ∧ Dictionary.checksum u = hash := by
  constructor
  · intro hu
    exact ⟨(mem_of_stage h hu).resolve_left (by simp), (stage_free (by simp) h hash u hu).1⟩
  · rintro ⟨hu, rfl⟩
    exact (stage_spec h).2 u hu

/-- Terms can be staged if they are free and a table of terms has them all. -/
theorem exists_stage (hfree : ∀ u ∈ us, ∀ w, d.terms[Dictionary.checksum u]? = some w → w = u)
    (hwhole : ∀ u ∈ us, whole[Dictionary.checksum u]? = some u)
    (hstaged : ∀ (hash : UInt32) (w : Uri), staged[hash]? = some w → whole[hash]? = some w) :
    ∃ staged', stage d staged us = .ok staged' := by
  induction us generalizing staged with
  | nil => exact ⟨staged, rfl⟩
  | cons u us ih =>
    obtain ⟨hu, hfree⟩ := List.forall_mem_cons.mp hfree
    obtain ⟨hwhole', hwhole⟩ := List.forall_mem_cons.mp hwhole
    have hdict : checkFree d.terms (Dictionary.checksum u) u = .ok () := checkFree_eq_ok.mpr hu
    have hbatch : checkFree staged (Dictionary.checksum u) u = .ok () :=
      checkFree_eq_ok.mpr fun w hw => Option.some.inj ((hstaged _ w hw).symm.trans hwhole')
    have hinsert : ∀ (hash : UInt32) (w : Uri),
        (staged.insert (Dictionary.checksum u) u)[hash]? = some w → whole[hash]? = some w := by
      intro hash w hw
      rw [Std.ExtTreeMap.getElem?_insert] at hw
      split at hw
      · next heq =>
        obtain rfl := Std.LawfulEqOrd.compare_eq_iff_eq.mp heq
        exact Option.some.inj hw ▸ hwhole'
      · exact hstaged hash w hw
    obtain ⟨staged', hstage⟩ := ih hfree hwhole hinsert
    exact ⟨staged', bind_eq_ok.mpr ⟨(), hdict, bind_eq_ok.mpr ⟨(), hbatch, hstage⟩⟩⟩

/-- Terms can be staged if they are free and no two of them share a checksum. -/
theorem exists_stage_of_apart
    (hfree : ∀ u ∈ us, ∀ w, d.terms[Dictionary.checksum u]? = some w → w = u)
    (hapart : ∀ u ∈ us, ∀ w ∈ us, Dictionary.checksum u = Dictionary.checksum w → u = w) :
    ∃ staged, stage d ∅ us = .ok staged := by
  have hwhole : ∃ whole : Std.ExtTreeMap UInt32 Uri compare,
      ∀ u ∈ us, whole[Dictionary.checksum u]? = some u := by
    clear hfree
    induction us with
    | nil => exact ⟨∅, List.forall_mem_nil _⟩
    | cons u us ih =>
      obtain ⟨whole, hwhole⟩ := ih fun w hw w' hw' =>
        hapart w (List.mem_cons_of_mem _ hw) w' (List.mem_cons_of_mem _ hw')
      refine ⟨whole.insert (Dictionary.checksum u) u, List.forall_mem_cons.mpr
        ⟨Std.ExtTreeMap.getElem?_insert_self, fun w hw => ?_⟩⟩
      rw [Std.ExtTreeMap.getElem?_insert]
      split
      · next heq =>
        have heq := Std.LawfulEqOrd.compare_eq_iff_eq.mp heq
        rw [hapart u List.mem_cons_self w (List.mem_cons_of_mem _ hw) heq]
      · exact hwhole w hw
  obtain ⟨whole, hwhole⟩ := hwhole
  exact exists_stage hfree hwhole (by simp)

/-- Batches of the same terms are staged alike. -/
theorem stage_congr (h : stage d ∅ us = .ok staged) (hmem : ∀ u, u ∈ ws ↔ u ∈ us) :
    stage d ∅ ws = .ok staged := by
  have hwhole : ∀ u ∈ ws, staged[Dictionary.checksum u]? = some u :=
    fun u hu => (stage_spec h).2 u ((hmem u).mp hu)
  have hfree : ∀ u ∈ ws, ∀ w, d.terms[Dictionary.checksum u]? = some w → w = u :=
    fun u hu => (stage_free (by simp) h _ u (hwhole u hu)).2
  obtain ⟨staged', hstage⟩ : ∃ staged', stage d ∅ ws = .ok staged' :=
    exists_stage hfree hwhole (by simp)
  have hsame : staged' = staged := by
    refine Std.ExtTreeMap.ext_getElem? fun hash => Option.ext fun u => ?_
    rw [getElem?_stage hstage, getElem?_stage h, hmem]
  rw [hstage, hsame]

/-- Batches of the same terms are registered alike. -/
theorem registerAll_congr (h : d.registerAll graph us = .ok d') (hmem : ∀ u, u ∈ ws ↔ u ∈ us) :
    d.registerAll graph ws = .ok d' := by
  obtain ⟨staged, hstage, h⟩ := bind_eq_ok.mp h
  exact bind_eq_ok.mpr ⟨staged, stage_congr hstage hmem, h⟩

end Dictionary

end TripleStore
