import TripleStore.Inference

/-!
# The closure with one queue

The closure can be computed by one loop.  Its queue holds the statements whose
consequences were not looked at yet, at the start the given ones.  Each turn takes
a statement from the front, and what follows from it and was not seen before goes
to the end, in the order of the rules.

What can still be found from a queue are its candidates that were not seen, and
they are finitely many.  A turn that finds something makes them fewer, as a
candidate of a consequence is a candidate of the statement it follows from.  Any
other turn makes the queue shorter.  So the loop ends, whatever the rules are.
-/

namespace TripleStore

namespace Inference

variable {rules : List InverseRule} {queue : List Triple} {seen : Triples} {t u : Triple}

/-! ## What can still be found -/

theorem mem_candidates : u ∈ candidates rules queue ↔ u ∈ queue ∨
    ∃ t ∈ queue, ∃ p ∈ rulePredicates rules,
      u = ⟨t.subject, p, t.object⟩ ∨ u = ⟨t.object, p, t.subject⟩ := by
  simp [candidates]

/-- A consequence is the statement turned around, with the predicate of a rule. -/
theorem exists_of_mem_consequences (h : u ∈ InverseRule.consequences rules t) :
    ∃ p ∈ rulePredicates rules, u = ⟨t.object, p, t.subject⟩ := by
  obtain ⟨r, hr, hinfer⟩ := List.mem_filterMap.mp h
  have hmem : ∀ p, p = r.predicate ∨ p = r.inverse → p ∈ rulePredicates rules := fun p hp =>
    List.mem_flatMap.mpr ⟨r, hr, by simpa using hp⟩
  rw [InverseRule.infer?] at hinfer
  split at hinfer
  · exact ⟨r.inverse, hmem _ (.inr rfl), (Option.some.inj hinfer).symm⟩
  · split at hinfer
    · exact ⟨r.predicate, hmem _ (.inl rfl), (Option.some.inj hinfer).symm⟩
    · cases hinfer

/-- The candidates of consequences are candidates of what they follow from. -/
theorem mem_candidates_of_consequences {found : List Triple}
    (hfound : ∀ t ∈ found, ∃ s ∈ queue, t ∈ InverseRule.consequences rules s)
    (h : u ∈ candidates rules found) : u ∈ candidates rules queue := by
  rw [mem_candidates] at h ⊢
  rcases h with hu | ⟨t, ht, q, hq, hends⟩
  · obtain ⟨s, hs, hcons⟩ := hfound u hu
    obtain ⟨p, hp, rfl⟩ := exists_of_mem_consequences hcons
    exact .inr ⟨s, hs, p, hp, .inr rfl⟩
  · obtain ⟨s, hs, hcons⟩ := hfound t ht
    obtain ⟨p, hp, rfl⟩ := exists_of_mem_consequences hcons
    -- turned around twice, the ends are as they were
    exact .inr ⟨s, hs, q, hq, hends.symm⟩

/-- The candidates of a queue that were not seen, each once. -/
def outstanding (rules : List InverseRule) (queue : List Triple) (seen : Triples) : List Triple :=
  (fresh seen (candidates rules queue)).1

theorem mem_outstanding :
    u ∈ outstanding rules queue seen ↔ u ∈ candidates rules queue ∧ u ∉ seen := mem_fresh

/-- What is outstanding after some candidates were found was outstanding before. -/
theorem length_outstanding_le {queue' : List Triple} {seen' : Triples}
    (hqueue : ∀ u ∈ candidates rules queue', u ∈ candidates rules queue)
    (hseen : ∀ u ∈ seen, u ∈ seen') :
    (outstanding rules queue' seen').length ≤ (outstanding rules queue seen).length := by
  refine (nodup_fresh _ _).length_le_of_subset fun u hu => ?_
  obtain ⟨hcand, hnew⟩ := mem_outstanding.mp hu
  exact mem_outstanding.mpr ⟨hqueue u hcand, fun h => hnew (hseen u h)⟩

/-- If something was found, less is outstanding than before. -/
theorem length_outstanding_lt {queue' : List Triple} {seen' : Triples}
    (hqueue : ∀ u ∈ candidates rules queue', u ∈ candidates rules queue)
    (hseen : ∀ u ∈ seen, u ∈ seen') (ht : t ∈ outstanding rules queue seen) (htseen : t ∈ seen') :
    (outstanding rules queue' seen').length < (outstanding rules queue seen).length := by
  have hnew : t ∉ outstanding rules queue' seen' := fun h => (mem_outstanding.mp h).2 htseen
  have hnd : (t :: outstanding rules queue' seen').Nodup :=
    List.nodup_cons.mpr ⟨hnew, nodup_fresh _ _⟩
  refine hnd.length_le_of_subset fun u hu => ?_
  rcases List.mem_cons.mp hu with rfl | hu
  · exact ht
  · obtain ⟨hcand, hn⟩ := mem_outstanding.mp hu
    exact mem_outstanding.mpr ⟨hqueue u hcand, fun h => hn (hseen u h)⟩

/-! ## The loop -/

/-- What follows from a statement and is new, and what was seen together with it. -/
def turn (rules : List InverseRule) (t : Triple) (seen : Triples) : List Triple × Triples :=
  fresh seen (InverseRule.consequences rules t)

theorem mem_candidates_turn (h : u ∈ candidates rules (queue ++ (turn rules t seen).1)) :
    u ∈ candidates rules (t :: queue) := by
  have hsplit : u ∈ candidates rules queue ∨ u ∈ candidates rules (turn rules t seen).1 := by
    simp only [mem_candidates, List.mem_append, or_and_right, exists_or] at h ⊢
    rwa [or_or_or_comm] at h
  rcases hsplit with hu | hu
  · rw [mem_candidates] at hu ⊢
    rcases hu with hu | ⟨s, hs, hrest⟩
    · exact .inl (List.mem_cons_of_mem _ hu)
    · exact .inr ⟨s, List.mem_cons_of_mem _ hs, hrest⟩
  · exact mem_candidates_of_consequences
      (fun s hs => ⟨t, List.mem_cons_self, (mem_fresh.mp hs).1⟩) hu

/-- A turn finds something, or makes the queue shorter. -/
theorem turn_decreases (rules : List InverseRule) (t : Triple) (queue : List Triple)
    (seen : Triples) : Prod.Lex (· < ·) (· < ·)
      ((outstanding rules (queue ++ (turn rules t seen).1) (turn rules t seen).2).length,
        (queue ++ (turn rules t seen).1).length)
      ((outstanding rules (t :: queue) seen).length, (t :: queue).length) := by
  have hqueue : ∀ u ∈ candidates rules (queue ++ (turn rules t seen).1),
      u ∈ candidates rules (t :: queue) := fun u hu => mem_candidates_turn hu
  have hseen : ∀ u ∈ seen, u ∈ (turn rules t seen).2 := fun u hu => mem_fresh_seen.mpr (.inl hu)
  by_cases hfound : (turn rules t seen).1 = []
  · refine .right' _ (length_outstanding_le hqueue hseen) ?_
    rw [hfound, List.append_nil]
    exact Nat.lt_succ_self _
  · obtain ⟨u, hu⟩ := List.exists_mem_of_ne_nil _ hfound
    obtain ⟨hcons, hnew⟩ := mem_fresh.mp hu
    have hcand : u ∈ candidates rules (t :: queue) :=
      hqueue u (mem_candidates.mpr (.inl (List.mem_append_right _ hu)))
    exact .left _ _ (length_outstanding_lt hqueue hseen (mem_outstanding.mpr ⟨hcand, hnew⟩)
      (mem_fresh_seen.mpr (.inr hcons)))

/-- Look at the consequences of the statements of a queue and of those that come to wait in it.
The answer is all that was found. -/
def drain (rules : List InverseRule) : List Triple → Triples → List Triple
  | [], _ => []
  | t :: queue, seen =>
    let found := turn rules t seen
    found.1 ++ drain rules (queue ++ found.1) found.2
termination_by queue seen => ((outstanding rules queue seen).length, queue.length)
decreasing_by exact turn_decreases rules t queue seen

/-- The closure of statements under the rules among them, with one queue. -/
def closeQueue (ts : List Triple) : List Triple :=
  let (given, seen) := fresh ∅ ts
  given ++ drain (InverseRule.ofTriples ts) given seen

end Inference

end TripleStore
