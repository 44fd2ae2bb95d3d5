import TripleStore.Proofs.Walk.Confined

/-!
# What readings find, whatever they start from

A walk may start from a key of which nothing is known, as a query can name
anything.  If the key cannot be read nothing is found from it.  If it can be
read it is a good key, as long as the source has entities of good keys only and
these hold good keys.  So a path with a segment leads to good keys, wherever it
starts, and so do statements.

`Confined` says that a reading from good keys stays among them.  Here the start
may be any key that may be asked for, and it is the first entity read that shows
it to be good.
-/

namespace TripleStore

variable {asked good : Key → Prop} {s : Source}

/-- Of the keys that may be asked for only good ones have entities, and these hold good keys. -/
structure Source.Supplies (asked good : Key → Prop) (s : Source) : Prop where
  /-- Good keys may be asked for. -/
  ask : ∀ k, good k → asked k
  /-- What is read is good. -/
  entity : ∀ k e, asked k → s k = .ok e → good k ∧ e.Within good

theorem Source.Supplies.closed (h : s.Supplies asked good) : s.Closed good :=
  fun k e hk he => (h.entity k e (h.ask k hk) he).2

namespace Reading

variable {α β : Type} {P : α → Prop} {Q : β → Prop}

/-- An answer of a reading has a property. -/
def Yields (s : Source) (P : α → Prop) (m : Reading α) : Prop := ∀ a, m.answer s = .ok a → P a

/-! ## Rules -/

theorem yields_give {a : α} (h : P a) : (pure a : Reading α).Yields s P := by
  intro b hb
  obtain rfl := Except.ok.inj hb
  exact h

theorem Yields.bind {m : Reading α} {f : α → Reading β} (hm : m.Yields s P)
    (hf : ∀ a, P a → (f a).Yields s Q) : (m >>= f).Yields s Q := by
  intro b hb
  rw [answer_bind] at hb
  cases ha : m.answer s with
  | error e =>
    rw [ha] at hb
    cases hb
  | ok a =>
    rw [ha] at hb
    exact hf a (hm a ha) b hb

theorem Yields.orAbsent {m : Reading α} (hm : m.Yields s P) :
    m.orAbsent.Yields s fun o => ∀ a, o = some a → P a := by
  intro o ho a ha
  subst ha
  rw [answer_orAbsent] at ho
  split at ho
  · next b hb =>
    obtain rfl := Option.some.inj (Except.ok.inj ho)
    exact hm b hb
  · split at ho
    · cases ho
    · cases ho

theorem yields_entity (hs : s.Supplies asked good) {k : Key} (hk : asked k) :
    (entity k).Yields s fun e => good k ∧ e.Within good := by
  intro e he
  rw [answer_entity] at he
  exact hs.entity k e hk he

theorem Confined.yields {m : Reading α} (hm : m.Confined good P) (hs : s.Supplies asked good) :
    m.Yields s P := fun a ha => hm.answer s a hs.closed ha

/-! ## Paths -/

open Confined

theorem yields_follow (hs : s.Supplies asked good) {d : Direction} {seg : Segment} {k : Key}
    (hk : asked k) : (follow d k seg).Yields s (AllReached good) := by
  intro r hr
  cases he : s k with
  | error f =>
    rw [follow, answer_bind, answer_entity, he] at hr
    cases hr
  | ok e =>
    -- the start was read, so it is good
    exact (Confined.follow (hs.entity k e hk he).1).yields hs r hr

theorem yields_advanceAll (hs : s.Supplies asked good) {d : Direction} {seg : Segment}
    {r : Reach} {ks : List Key} (hr : AllReached good r) (hks : ∀ k ∈ ks, asked k) :
    (advanceAll d seg r ks).Yields s (AllReached good) := by
  induction ks generalizing r with
  | nil => exact yields_give hr
  | cons k ks ih =>
    refine Yields.bind (P := AllReached good) ?_ fun r hr =>
      ih hr fun k hk => hks k (List.mem_cons_of_mem _ hk)
    rw [advance]
    split
    · exact yields_give hr
    · refine (yields_follow hs (hks k List.mem_cons_self)).orAbsent.bind fun o ho => ?_
      cases o with
      | none => exact yields_give hr
      | some r' => exact yields_give (all_union hr (ho r' rfl))

/-- A walk over a segment or more leads to good keys. -/
theorem yields_walk (hs : s.Supplies asked good) {d : Direction} {segs : List Segment}
    {frontier : Keys} (hne : segs ≠ []) (hf : ∀ k ∈ frontier, asked k) :
    (walk d segs frontier).Yields s (All good) := by
  cases segs with
  | nil => exact absurd rfl hne
  | cons seg segs =>
    have hstart : AllReached good ⟨∅, ∅⟩ := all_empty
    exact (yields_advanceAll hs hstart (all_toList hf)).bind fun r hr =>
      (Confined.walk hr).yields hs

theorem yields_objects (hs : s.Supplies asked good) {k : Key} {segs : List Segment}
    (hne : segs ≠ []) (hk : asked k) : (objects k segs).Yields s (All good) :=
  yields_walk hs hne (singleton_good hk)

theorem yields_subjects (hs : s.Supplies asked good) {k : Key} {segs : List Segment}
    (hne : segs ≠ []) (hk : asked k) : (subjects k segs).Yields s (All good) :=
  yields_walk hs (List.reverse_eq_nil_iff.not.mpr hne) (singleton_good hk)

/-! ## Pairs and statements -/

/-- What is made of an entity that may be absent. -/
theorem yields_of_entity (hs : s.Supplies asked good) {k : Key} (hk : asked k)
    {f : Option Entity → Reading α} (hnone : (f none).Yields s P)
    (hsome : ∀ e : Entity, e.Within good → (f (some e)).Yields s P) :
    ((entity k).orAbsent >>= f).Yields s P := by
  refine (yields_entity hs hk).orAbsent.bind fun o ho => ?_
  cases o with
  | none => exact hnone
  | some e => exact hsome e (ho e rfl).2

theorem yields_predicatePairs (hs : s.Supplies asked good) {p : Key} (hp : asked p) :
    (predicatePairs p).Yields s (Pairs good) :=
  yields_of_entity hs hp (yields_give pairs_nil) fun _ he => yields_give (endpointPairs_good he)

theorem yields_pathStarts (hs : s.Supplies asked good) {segs : List Segment}
    (hp : ∀ seg ∈ segs, asked seg.predicate) : (pathStarts segs).Yields s (All good) := by
  induction segs with
  | nil => exact yields_give all_empty
  | cons seg segs ih =>
    refine (yields_predicatePairs hs (hp seg List.mem_cons_self)).bind fun ps hps => ?_
    have hhere : All good (Keys.ofList (ps.map (·.1))) := by
      refine all_ofList fun k hk => ?_
      obtain ⟨p, hp, rfl⟩ := List.mem_map.mp hk
      exact (hps p hp).1
    simp only
    split
    · exact (ih fun seg h => hp seg (List.mem_cons_of_mem _ h)).bind fun ks hks =>
        yields_give (all_union hhere hks)
    · exact yields_give hhere

theorem yields_pathPairs (hs : s.Supplies asked good) {segs : List Segment}
    (hp : ∀ seg ∈ segs, asked seg.predicate) : (pathPairs segs).Yields s (Pairs good) := by
  simp only [pathPairs]
  split
  · exact yields_give pairs_nil
  · exact yields_predicatePairs hs (hp _ List.mem_cons_self)
  · exact (yields_pathStarts hs hp).bind fun ks hks =>
      (Confined.pairsFrom (all_toList hks)).yields hs

theorem yields_predicatesBetween (hs : s.Supplies asked good) {k o : Key} (hk : asked k) :
    (predicatesBetween k o).Yields s (All good) := by
  refine yields_of_entity hs hk (yields_give all_empty) fun e he => yields_give ?_
  refine all_ofList fun l hl => ?_
  obtain ⟨p, hp, rfl⟩ := List.mem_map.mp hl
  exact (statementPairs_good he .forward p (List.mem_filter.mp hp).1).1

theorem yields_statementsInto (hs : s.Supplies asked good) {o : Key} (ho : asked o) :
    (statementsInto o).Yields s (Pairs good) := by
  refine yields_of_entity hs ho (yields_give pairs_nil) fun e he => yields_give fun p hp => ?_
  obtain ⟨q, hq, rfl⟩ := List.mem_map.mp hp
  exact (statementPairs_good he .backward q hq).symm

theorem yields_statementsFrom (hs : s.Supplies asked good) {k : Key} (hk : asked k) :
    (statementsFrom k).Yields s (Pairs good) :=
  yields_of_entity hs hk (yields_give pairs_nil) fun _ he =>
    yields_give (statementPairs_good he .forward)

end Reading

end TripleStore
