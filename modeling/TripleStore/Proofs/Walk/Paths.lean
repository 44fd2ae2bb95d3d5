import TripleStore.Proofs.Walk.Explore

/-!
# Walking a path

A walk over a source that presents statements never fails if its start is a node
or has no entity, and finds what the path relates to its start.  An entity of the
frontier that was seen before is left out, and `Found.seen` is why nothing is lost
by this.

The pairs of a path are found from its possible starts.  `PathStart` says which
these are.  A path with a segment that takes a hop relates nothing to what is no
start, so all its pairs are found.  A path all of whose segments may be skipped
relates every node to itself, and only the starts among them are found.
-/

open Relation

namespace TripleStore

namespace Reading

variable {here : UInt32 × UInt64} {ss : List Statement} {src : Source} {d : Direction}

/-! ## The frontier -/

/-- What was found from some entities of a frontier. -/
structure Advanced (ss : List Statement) (d : Direction) (seg : Segment) (ks : List Key)
    (r : Reach) : Prop where
  /-- What was reached is what the segment relates to one of them. -/
  reached : ∀ t, t ∈ r.reached ↔ ∃ k ∈ ks, d.Follows ss seg k t
  /-- What the segment relates to an entity seen was reached. -/
  seen : ∀ a ∈ r.seen, ∀ t, d.Follows ss seg a t → t ∈ r.reached

/-- An entity from which nothing new is reached can be left out. -/
theorem Advanced.skip {seg : Segment} {ks : List Key} {r : Reach} {k : Key}
    (h : Advanced ss d seg ks r) (hk : ∀ t, d.Follows ss seg k t → t ∈ r.reached) :
    Advanced ss d seg (ks ++ [k]) r := by
  refine ⟨fun t => ?_, h.seen⟩
  constructor
  · intro ht
    obtain ⟨a, ha, hat⟩ := (h.reached t).mp ht
    exact ⟨a, List.mem_append_left _ ha, hat⟩
  · rintro ⟨a, ha, hat⟩
    rcases List.mem_append.mp ha with ha | ha
    · exact (h.reached t).mpr ⟨a, ha, hat⟩
    · obtain rfl := List.mem_singleton.mp ha
      exact hk t hat

/-- What was found from one more entity is added. -/
theorem Advanced.add {seg : Segment} {ks : List Key} {r s : Reach} {k : Key}
    (h : Advanced ss d seg ks r) (hf : Found ss d seg k s) :
    Advanced ss d seg (ks ++ [k]) ⟨r.reached ∪ s.reached, r.seen ∪ s.seen⟩ := by
  have hunion : ∀ t, t ∈ r.reached ∪ s.reached ↔ t ∈ r.reached ∨ t ∈ s.reached :=
    fun t => Std.ExtTreeSet.mem_union_iff
  refine ⟨fun t => ?_, fun a ha t hat => ?_⟩
  · rw [hunion, h.reached, hf.reached]
    constructor
    · rintro (⟨a, ha, hat⟩ | hkt)
      · exact ⟨a, List.mem_append_left _ ha, hat⟩
      · exact ⟨k, List.mem_append_right _ List.mem_cons_self, hkt⟩
    · rintro ⟨a, ha, hat⟩
      rcases List.mem_append.mp ha with ha | ha
      · exact .inl ⟨a, ha, hat⟩
      · obtain rfl := List.mem_singleton.mp ha
        exact .inr hat
  · rcases Std.ExtTreeSet.mem_union_iff.mp ha with ha | ha
    · exact (hunion t).mpr (.inl (h.seen a ha t hat))
    · exact (hunion t).mpr (.inr (hf.seen a ha t hat))

theorem advance_spec (hs : src.Presents here ss) {seg : Segment} (hp : seg.predicate.place = here)
    {ks : List Key} {r : Reach} {k : Key} (hk : src.Settles ss k) (h : Advanced ss d seg ks r) :
    ∃ r', (advance d seg r k).answer src = .ok r' ∧ Advanced ss d seg (ks ++ [k]) r' := by
  rw [advance]
  by_cases hseen : k ∈ r.seen
  · rw [if_pos hseen]
    exact ⟨r, rfl, h.skip fun t hkt => h.seen k hseen t hkt⟩
  · rw [if_neg hseen, answer_bind, answer_orAbsent]
    by_cases hn : IsNode ss k
    · obtain ⟨s, hfollow, hf⟩ := follow_spec (d := d) hs hp hn
      rw [hfollow]
      exact ⟨_, rfl, h.add hf⟩
    · rw [follow_absent (hk.resolve_left hn)]
      exact ⟨r, rfl, h.skip fun t hkt => absurd hkt.isNode.1 hn⟩

theorem advanceAll_spec (hs : src.Presents here ss) {seg : Segment}
    (hp : seg.predicate.place = here) {ks done : List Key} {r : Reach}
    (hks : ∀ k ∈ ks, src.Settles ss k) (h : Advanced ss d seg done r) :
    ∃ r', (advanceAll d seg r ks).answer src = .ok r' ∧ Advanced ss d seg (done ++ ks) r' := by
  induction ks generalizing done r with
  | nil => exact ⟨r, rfl, by simpa using h⟩
  | cons k ks ih =>
    obtain ⟨r₁, hr₁, h₁⟩ := advance_spec hs hp (hks k (by simp)) h
    obtain ⟨r₂, hr₂, h₂⟩ := ih (fun k hk => hks k (by simp [hk])) h₁
    refine ⟨r₂, ?_, by simpa using h₂⟩
    rw [advanceAll, answer_bind, hr₁]
    exact hr₂

/-! ## Paths -/

/-- A walk finds what its segments relate to the frontier. -/
theorem walk_spec (hs : src.Presents here ss) (d : Direction) (segs : List Segment)
    (frontier : Keys) (hp : ∀ seg ∈ segs, seg.predicate.place = here)
    (hf : ∀ k ∈ frontier, src.Settles ss k) :
    ∃ ks, (walk d segs frontier).answer src = .ok ks ∧
      ∀ t, t ∈ ks ↔ ∃ k ∈ frontier, d.Walks ss segs k t := by
  induction segs generalizing frontier with
  | nil =>
    refine ⟨frontier, rfl, fun t => ?_⟩
    simp [Direction.Walks]
  | cons seg segs ih =>
    have hmem : ∀ k, k ∈ frontier.toList ↔ k ∈ frontier := fun k => Std.ExtTreeSet.mem_toList
    have hstart : Advanced ss d seg [] ⟨∅, ∅⟩ := by
      refine ⟨fun t => ?_, fun a ha => ?_⟩
      · simp
      · simp at ha
    obtain ⟨r, hr, hadv⟩ := advanceAll_spec hs (hp seg (by simp))
      (fun k hk => hf k ((hmem k).mp hk)) hstart
    obtain ⟨ks, hks, hspec⟩ := ih r.reached (fun seg h => hp seg (by simp [h])) (by
      intro k hk
      obtain ⟨a, -, hak⟩ := (hadv.reached k).mp hk
      exact .inl hak.isNode.2)
    refine ⟨ks, by rw [walk, answer_bind, hr]; exact hks, fun t => ?_⟩
    rw [hspec]
    constructor
    · rintro ⟨c, hc, hct⟩
      obtain ⟨k, hk, hkc⟩ := (hadv.reached c).mp hc
      exact ⟨k, (hmem k).mp hk, c, hkc, hct⟩
    · rintro ⟨k, hk, c, hkc, hct⟩
      exact ⟨c, (hadv.reached c).mpr ⟨k, (hmem k).mpr hk, hkc⟩, hct⟩

theorem mem_ofList_singleton {k t : Key} : t ∈ Keys.ofList [k] ↔ t = k := by
  rw [Keys.mem_ofList, List.mem_singleton]

/-- The objects of a subject are what the path relates to it. -/
theorem objects_spec (hs : src.Presents here ss) {segs : List Segment} {s : Key}
    (hp : ∀ seg ∈ segs, seg.predicate.place = here) (hk : src.Settles ss s) :
    ∃ ks, (objects s segs).answer src = .ok ks ∧ ∀ o, o ∈ ks ↔ PathLinks ss segs s o := by
  obtain ⟨ks, hks, hspec⟩ := walk_spec hs .forward segs (Keys.ofList [s]) hp (by
    intro k h
    rwa [mem_ofList_singleton.mp h])
  refine ⟨ks, hks, fun o => ?_⟩
  rw [hspec]
  simp only [mem_ofList_singleton, exists_eq_left, Direction.walks_forward]

/-- The subjects of an object are what the path relates it to. -/
theorem subjects_spec (hs : src.Presents here ss) {segs : List Segment} {o : Key}
    (hp : ∀ seg ∈ segs, seg.predicate.place = here) (hk : src.Settles ss o) :
    ∃ ks, (subjects o segs).answer src = .ok ks ∧ ∀ s, s ∈ ks ↔ PathLinks ss segs s o := by
  obtain ⟨ks, hks, hspec⟩ := walk_spec hs .backward segs.reverse (Keys.ofList [o])
    (fun seg h => hp seg (List.mem_reverse.mp h)) (by
    intro k h
    rwa [mem_ofList_singleton.mp h])
  refine ⟨ks, hks, fun s => ?_⟩
  rw [hspec]
  simp only [mem_ofList_singleton, exists_eq_left, Direction.walks_reverse]

/-! ## Pairs -/

/-- The pairs of a predicate are its statements. -/
theorem predicatePairs_spec (hs : src.Presents here ss) {p : Key} (hp : src.Settles ss p) :
    ∃ pairs, (predicatePairs p).answer src = .ok pairs ∧
      ∀ s o, (s, o) ∈ pairs ↔ Hop ss p s o := by
  rcases answer_orAbsent_entity hs hp with ⟨-, e, he, rfl, hd⟩ | ⟨hn, he⟩
  · exact ⟨e.endpointPairs, by rw [predicatePairs, answer_bind, he]; rfl,
      fun s o => hd.mem_endpointPairs⟩
  · refine ⟨[], by rw [predicatePairs, answer_bind, he]; rfl, fun s o => ?_⟩
    constructor
    · intro h
      cases h
    · intro h
      exact absurd h.predicate_isNode hn

/-- The entities from which a path is walked: subjects of its first predicate, and of
the next one as long as a segment may be skipped. -/
def PathStart (ss : List Statement) : List Segment → Key → Prop
  | [], _ => False
  | seg :: segs, k =>
    (∃ o, Hop ss seg.predicate k o) ∨ seg.quantifier.allowsNoHop = true ∧ PathStart ss segs k

theorem PathStart.isNode {segs : List Segment} {k : Key} (h : PathStart ss segs k) :
    IsNode ss k := by
  induction segs with
  | nil => cases h
  | cons seg segs ih =>
    rcases h with ⟨o, ho⟩ | ⟨-, h⟩
    · exact ho.subject_isNode
    · exact ih h

theorem pathStarts_spec (hs : src.Presents here ss) {segs : List Segment}
    (hp : ∀ seg ∈ segs, src.Settles ss seg.predicate) :
    ∃ ks, (pathStarts segs).answer src = .ok ks ∧ ∀ k, k ∈ ks ↔ PathStart ss segs k := by
  induction segs with
  | nil =>
    refine ⟨∅, rfl, fun k => ?_⟩
    simp [PathStart]
  | cons seg segs ih =>
    obtain ⟨pairs, hpairs, hspec⟩ := predicatePairs_spec hs (hp seg (by simp))
    obtain ⟨ks, hks, hstarts⟩ := ih fun seg h => hp seg (by simp [h])
    have hhere : ∀ k, k ∈ Keys.ofList (pairs.map (·.1)) ↔ ∃ o, Hop ss seg.predicate k o := by
      intro k
      rw [Keys.mem_ofList, List.mem_map]
      constructor
      · rintro ⟨⟨s, o⟩, hso, rfl⟩
        exact ⟨o, (hspec s o).mp hso⟩
      · rintro ⟨o, ho⟩
        exact ⟨(k, o), (hspec k o).mpr ho, rfl⟩
    rw [pathStarts, answer_bind, hpairs]
    cases hq : seg.quantifier.allowsNoHop with
    | true =>
      refine ⟨Keys.ofList (pairs.map (·.1)) ∪ ks, ?_, fun k => ?_⟩
      · show ((pathStarts segs >>= fun ks => pure (Keys.ofList (pairs.map (·.1)) ∪ ks)) :
          Reading Keys).answer src = _
        rw [answer_bind, hks]
        rfl
      · rw [Std.ExtTreeSet.mem_union_iff, hhere, hstarts, PathStart]
        simp [hq]
    | false =>
      refine ⟨Keys.ofList (pairs.map (·.1)), rfl, fun k => ?_⟩
      rw [hhere, PathStart]
      simp [hq]

/-- What a path relates is one of its starts, if a hop is taken. -/
theorem pathStart_of_links {segs : List Segment} {s o : Key} (h : PathLinks ss segs s o)
    (hhop : s ≠ o ∨ ∃ seg ∈ segs, seg.quantifier.allowsNoHop = false) : PathStart ss segs s := by
  induction segs with
  | nil =>
    rcases hhop with hne | ⟨seg, hseg, -⟩
    · exact absurd h hne
    · cases hseg
  | cons seg segs ih =>
    obtain ⟨c, hsc, hco⟩ := h
    rcases hsc.hop_or_eq with hop | rfl
    · exact .inl hop
    · -- the first segment took no hop, so a later one does unless it has to itself
      cases hq : seg.quantifier.allowsNoHop with
      | false => exact .inl (hsc.exists_hop hq)
      | true =>
        refine .inr ⟨hq, ih hco ?_⟩
        rcases hhop with hne | ⟨seg', hseg', hq'⟩
        · exact .inl hne
        · rcases List.mem_cons.mp hseg' with rfl | hseg'
          · rw [hq] at hq'
            cases hq'
          · exact .inr ⟨seg', hseg', hq'⟩

/-- The pairs of some subjects are settled by the objects of each. -/
theorem pairsFrom_of_objects {segs : List Segment} {links : Key → Key → Prop} {ks : List Key}
    (h : ∀ k ∈ ks, ∃ os, (objects k segs).answer src = .ok os ∧ ∀ o, o ∈ os ↔ links k o) :
    ∃ pairs, (pairsFrom segs ks).answer src = .ok pairs ∧
      ∀ s o, (s, o) ∈ pairs ↔ s ∈ ks ∧ links s o := by
  induction ks with
  | nil => exact ⟨[], rfl, by simp⟩
  | cons k ks ih =>
    obtain ⟨os, hos, hobjects⟩ := h k List.mem_cons_self
    obtain ⟨rest, hrest, hspec⟩ := ih fun k hk => h k (List.mem_cons_of_mem _ hk)
    refine ⟨os.toList.map (fun o => (k, o)) ++ rest, ?_, fun s o => ?_⟩
    · rw [pairsFrom, answer_bind, hos]
      show ((pairsFrom segs ks >>= fun rest => pure (os.toList.map (fun o => (k, o)) ++ rest)) :
        Reading (List (Key × Key))).answer src = _
      rw [answer_bind, hrest]
      rfl
    · rw [List.mem_append, hspec, List.mem_map, List.mem_cons]
      constructor
      · rintro (⟨o', ho', heq⟩ | ⟨hk, hl⟩)
        · obtain ⟨rfl, rfl⟩ := Prod.mk.inj heq
          exact ⟨.inl rfl, (hobjects o').mp (Std.ExtTreeSet.mem_toList.mp ho')⟩
        · exact ⟨.inr hk, hl⟩
      · rintro ⟨rfl | hk, hl⟩
        · exact .inl ⟨o, Std.ExtTreeSet.mem_toList.mpr ((hobjects o).mpr hl), rfl⟩
        · exact .inr ⟨hk, hl⟩

theorem pairsFrom_spec (hs : src.Presents here ss) {segs : List Segment}
    (hp : ∀ seg ∈ segs, seg.predicate.place = here) {ks : List Key}
    (hks : ∀ k ∈ ks, src.Settles ss k) :
    ∃ pairs, (pairsFrom segs ks).answer src = .ok pairs ∧
      ∀ s o, (s, o) ∈ pairs ↔ s ∈ ks ∧ PathLinks ss segs s o :=
  pairsFrom_of_objects fun k hk => objects_spec hs hp (hks k hk)

/-- The pairs of a path are what it relates to its starts. -/
theorem pathPairs_spec (hs : src.Presents here ss) {segs : List Segment}
    (hp : ∀ seg ∈ segs, seg.predicate.place = here)
    (hset : ∀ seg ∈ segs, src.Settles ss seg.predicate) :
    ∃ pairs, (pathPairs segs).answer src = .ok pairs ∧
      ∀ s o, (s, o) ∈ pairs ↔ PathStart ss segs s ∧ PathLinks ss segs s o := by
  have hwalked : ∃ pairs, (pathStarts segs >>= fun starts =>
      pairsFrom segs starts.toList : Reading (List (Key × Key))).answer src = .ok pairs ∧
      ∀ s o, (s, o) ∈ pairs ↔ PathStart ss segs s ∧ PathLinks ss segs s o := by
    obtain ⟨starts, hstarts, hstart⟩ := pathStarts_spec hs hset
    obtain ⟨pairs, hpairs, hspec⟩ := pairsFrom_spec hs hp fun k hk =>
      .inl ((hstart k).mp (Std.ExtTreeSet.mem_toList.mp hk)).isNode
    refine ⟨pairs, by rw [answer_bind, hstarts]; exact hpairs, fun s o => ?_⟩
    rw [hspec, Std.ExtTreeSet.mem_toList, hstart]
  simp only [pathPairs]
  split
  · exact ⟨[], rfl, fun s o => by simp [PathStart]⟩
  · next p =>
    obtain ⟨pairs, hpairs, hspec⟩ := predicatePairs_spec hs (hset _ List.mem_cons_self)
    refine ⟨pairs, hpairs, fun s o => ?_⟩
    rw [hspec, pathLinks_singleton]
    constructor
    · intro h
      exact ⟨.inl ⟨o, h⟩, h⟩
    · rintro ⟨-, h⟩
      exact h
  · exact hwalked

/-! ## Statements around an entity -/

theorem predicatesBetween_spec (hs : src.Shows here ss) {s o : Key} (hk : s.place = here) :
    ∃ ks, (predicatesBetween s o).answer src = .ok ks ∧ ∀ p, p ∈ ks ↔ Hop ss p s o := by
  rcases answer_orAbsent_entity hs.toPresents (hs.settles hk) with ⟨-, e, he, rfl, hd⟩ | ⟨hn, he⟩
  · refine ⟨_, by rw [predicatesBetween, answer_bind, he]; rfl, fun p => ?_⟩
    rw [Keys.mem_ofList]
    simp only [List.mem_map, List.mem_filter, decide_eq_true_eq]
    constructor
    · rintro ⟨⟨p', o'⟩, ⟨hx, rfl⟩, rfl⟩
      exact (hd.mem_statementPairs (d := .forward)).mp hx
    · intro h
      exact ⟨(p, o), ⟨(hd.mem_statementPairs (d := .forward)).mpr h, rfl⟩, rfl⟩
  · refine ⟨∅, by rw [predicatesBetween, answer_bind, he]; rfl, fun p => ?_⟩
    constructor
    · intro h
      simp at h
    · intro h
      exact absurd h.subject_isNode hn

theorem statementsInto_spec (hs : src.Shows here ss) {o : Key} (hk : o.place = here) :
    ∃ pairs, (statementsInto o).answer src = .ok pairs ∧
      ∀ s p, (s, p) ∈ pairs ↔ Hop ss p s o := by
  rcases answer_orAbsent_entity hs.toPresents (hs.settles hk) with ⟨-, e, he, rfl, hd⟩ | ⟨hn, he⟩
  · refine ⟨_, by rw [statementsInto, answer_bind, he]; rfl, fun s p => ?_⟩
    simp only [List.mem_map]
    constructor
    · rintro ⟨⟨p', s'⟩, hx, heq⟩
      obtain ⟨rfl, rfl⟩ := Prod.mk.inj heq
      exact (hd.mem_statementPairs (d := .backward)).mp hx
    · intro h
      exact ⟨(p, s), (hd.mem_statementPairs (d := .backward)).mpr h, rfl⟩
  · refine ⟨[], by rw [statementsInto, answer_bind, he]; rfl, fun s p => ?_⟩
    constructor
    · intro h
      cases h
    · intro h
      exact absurd h.object_isNode hn

theorem statementsFrom_spec (hs : src.Shows here ss) {s : Key} (hk : s.place = here) :
    ∃ pairs, (statementsFrom s).answer src = .ok pairs ∧
      ∀ p o, (p, o) ∈ pairs ↔ Hop ss p s o := by
  rcases answer_orAbsent_entity hs.toPresents (hs.settles hk) with ⟨-, e, he, rfl, hd⟩ | ⟨hn, he⟩
  · refine ⟨_, by rw [statementsFrom, answer_bind, he]; rfl, fun p o => ?_⟩
    exact hd.mem_statementPairs (d := .forward)
  · refine ⟨[], by rw [statementsFrom, answer_bind, he]; rfl, fun p o => ?_⟩
    constructor
    · intro h
      cases h
    · intro h
      exact absurd h.subject_isNode hn

end Reading

end TripleStore
