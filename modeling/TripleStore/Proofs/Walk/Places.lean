import TripleStore.Proofs.Walk.Mirrored

/-!
# Statements of several places

Rows may bind keys of any version of any graph.  A walk that starts from a key reads
records of the place of that key, and looks predicates up by their terms.  So what
a walk finds is settled by the statements of the place it starts in, and it never
leaves that place.

`Hops` and `Links` put the statements of all places together.  Two lists of
statements that are shown for one place have the same statements, as the same is
read from either.
-/

namespace TripleStore

open Reading

variable {here : UInt32 × UInt64} {ss ss' : List Statement} {src : Source} {segs : List Segment}
  {a b k p s o : Key}

namespace Source

/-- The statements of the place of a key are shown. -/
def Places (src : Source) (k : Key) : Prop := ∃ ss, src.Shows k.place ss

/-- Some place has a statement. -/
def Hops (src : Source) (p s o : Key) : Prop := ∃ here ss, src.Shows here ss ∧ Hop ss p s o

/-- A path relates two keys in some place. -/
def Links (src : Source) (segs : List Segment) (a b : Key) : Prop :=
  ∃ here ss, src.Shows here ss ∧ PathLinks ss (segs.map (Segment.inPlace here)) a b

/-- A place of which there are no records is shown, and has no statements. -/
theorem places_of_lacks {store : Store} (h : store.Lacks k.place) : Places store.entity k := by
  have hnone : ∀ k, ¬ IsNode [] k := fun k ⟨_, hmem, _⟩ => List.not_mem_nil hmem
  refine ⟨[], ⟨fun k hk => absurd hk (hnone k), fun k hk => absurd hk (hnone k)⟩, ?_⟩
  exact fun k hk _ => Store.entity_of_notFound (h k hk)

end Source

/-! ## One place -/

/-- What is shown for one place are the same statements. -/
theorem Source.Shows.hop_iff (h : src.Shows here ss) (h' : src.Shows here ss') :
    Hop ss p s o ↔ Hop ss' p s o := by
  by_cases hs : s.place = here
  · obtain ⟨pairs, hpairs, hspec⟩ := statementsFrom_spec h hs
    obtain ⟨pairs', hpairs', hspec'⟩ := statementsFrom_spec h' hs
    cases hpairs.symm.trans hpairs'
    rw [← hspec, ← hspec']
  · exact iff_of_false (fun hop => hs (h.place s hop.subject_isNode))
      fun hop => hs (h'.place s hop.subject_isNode)

/-- A statement is a statement of the place of each of its keys. -/
theorem Source.Shows.hops_iff (h : src.Shows here ss)
    (hk : p.place = here ∨ s.place = here ∨ o.place = here) : src.Hops p s o ↔ Hop ss p s o := by
  refine ⟨?_, fun hop => ⟨here, ss, h, hop⟩⟩
  rintro ⟨there, ss', h', hop⟩
  obtain rfl : there = here := by
    rcases hk with hk | hk | hk
    · exact (h'.place p hop.predicate_isNode).symm.trans hk
    · exact (h'.place s hop.subject_isNode).symm.trans hk
    · exact (h'.place o hop.object_isNode).symm.trans hk
  exact (h.hop_iff h').mpr hop

/-- What a path relates is related by the statements of the place of either end. -/
theorem Source.Shows.links_iff (h : src.Shows here ss) (hk : a.place = here ∨ b.place = here) :
    src.Links segs a b ↔ PathLinks ss (segs.map (Segment.inPlace here)) a b := by
  refine ⟨?_, fun hl => ⟨here, ss, h, hl⟩⟩
  rintro ⟨there, ss', h', hl⟩
  cases segs with
  | nil => exact hl
  | cons seg segs =>
    obtain ⟨ha, hb⟩ := hl.isNode (List.cons_ne_nil _ _)
    obtain rfl : there = here := by
      rcases hk with hk | hk
      · exact (h'.place a ha).symm.trans hk
      · exact (h'.place b hb).symm.trans hk
    have hplace := h'.place a ha
    -- the objects that are read are the same
    obtain ⟨os, hos, hspec⟩ :=
      objects_spec h.toPresents (Segment.place_map_inPlace _) (h.settles hplace)
    obtain ⟨os', hos', hspec'⟩ :=
      objects_spec h'.toPresents (Segment.place_map_inPlace _) (h'.settles hplace)
    cases hos.symm.trans hos'
    exact (hspec b).mp ((hspec' b).mpr hl)

/-! ## Reading from any place -/

namespace Reading

theorem objects_links (hk : src.Places k) (segs : List Segment) :
    ∃ os, (objects k segs).answer src = .ok os ∧ ∀ o, o ∈ os ↔ src.Links segs k o := by
  obtain ⟨ss, hs⟩ := hk
  obtain ⟨os, hos, hspec⟩ :=
    objects_spec hs.toPresents (Segment.place_map_inPlace segs) (hs.settles rfl)
  rw [objects, walk_inPlace] at hos
  exact ⟨os, hos, fun o => (hspec o).trans (hs.links_iff (.inl rfl)).symm⟩

theorem subjects_links (hk : src.Places k) (segs : List Segment) :
    ∃ subs, (subjects k segs).answer src = .ok subs ∧ ∀ s, s ∈ subs ↔ src.Links segs s k := by
  obtain ⟨ss, hs⟩ := hk
  obtain ⟨subs, hsubs, hspec⟩ :=
    subjects_spec hs.toPresents (Segment.place_map_inPlace segs) (hs.settles rfl)
  rw [subjects, ← List.map_reverse, walk_inPlace] at hsubs
  exact ⟨subs, hsubs, fun s => (hspec s).trans (hs.links_iff (.inr rfl)).symm⟩

theorem statementsFrom_hops (hk : src.Places k) :
    ∃ pairs, (statementsFrom k).answer src = .ok pairs ∧
      ∀ p o, (p, o) ∈ pairs ↔ src.Hops p k o := by
  obtain ⟨ss, hs⟩ := hk
  obtain ⟨pairs, hpairs, hspec⟩ := statementsFrom_spec hs rfl
  exact ⟨pairs, hpairs, fun p o => (hspec p o).trans (hs.hops_iff (.inr (.inl rfl))).symm⟩

theorem statementsInto_hops (hk : src.Places k) :
    ∃ pairs, (statementsInto k).answer src = .ok pairs ∧
      ∀ s p, (s, p) ∈ pairs ↔ src.Hops p s k := by
  obtain ⟨ss, hs⟩ := hk
  obtain ⟨pairs, hpairs, hspec⟩ := statementsInto_spec hs rfl
  exact ⟨pairs, hpairs, fun s p => (hspec s p).trans (hs.hops_iff (.inr (.inr rfl))).symm⟩

theorem predicatePairs_hops (hk : src.Places k) :
    ∃ pairs, (predicatePairs k).answer src = .ok pairs ∧
      ∀ s o, (s, o) ∈ pairs ↔ src.Hops k s o := by
  obtain ⟨ss, hs⟩ := hk
  obtain ⟨pairs, hpairs, hspec⟩ := predicatePairs_spec hs.toPresents (hs.settles rfl)
  exact ⟨pairs, hpairs, fun s o => (hspec s o).trans (hs.hops_iff (.inl rfl)).symm⟩

end Reading

end TripleStore
