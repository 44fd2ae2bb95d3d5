import Mathlib.Data.List.TakeWhile
import TripleStore.Walk.Path

/-!
# Readings that stay among some keys

A set of keys is closed in a source if the entities of its keys hold no other
keys.  A reading is confined to the set if it asks for no other key, whatever
source it is closed in.  Then sources that agree on the set cannot be told apart,
and all that is logged was read from the source.

The keys of one version are such a set, and so are all keys.  The first says that
a later version changes nothing for a reading, and the second that what was read
may be remembered.
-/

namespace TripleStore

/-- The keys an entity holds are among some keys. -/
structure Entity.Within (good : Key → Prop) (e : Entity) : Prop where
  /-- Those of its edges. -/
  edges : ∀ (d : Direction) (x : Edge), x ∈ d.edges e → good x.predicate ∧ good x.value
  /-- Those of its endpoints. -/
  endpoints : ∀ x ∈ e.endpoints, good x.subject ∧ good x.object

theorem Entity.Within.mono {good good' : Key → Prop} {e : Entity} (h : e.Within good)
    (hgood : ∀ k, good k → good' k) : e.Within good' where
  edges d x hx := (h.edges d x hx).imp (hgood _) (hgood _)
  endpoints x hx := (h.endpoints x hx).imp (hgood _) (hgood _)

/-- Entities of some keys hold no other keys. -/
def Source.Closed (good : Key → Prop) (s : Source) : Prop :=
  ∀ k e, good k → s k = .ok e → e.Within good

/-- There are no other keys than all keys. -/
theorem Source.closed_true (s : Source) : s.Closed fun _ => True := fun _ _ _ _ =>
  ⟨fun _ _ _ => ⟨trivial, trivial⟩, fun _ _ => ⟨trivial, trivial⟩⟩

/-- A reading asks for no other keys than some, and its answer has a property. -/
structure Reading.Confined {α : Type} (good : Key → Prop) (P : α → Prop) (m : Reading α) :
    Prop where
  /-- Sources that agree on the keys are not told apart. -/
  same : ∀ s s' : Source, s.Closed good → (∀ k, good k → s k = s' k) → m s = m s'
  /-- The answer has the property. -/
  answer : ∀ (s : Source) (a : α), s.Closed good → m.answer s = .ok a → P a
  /-- All that is logged was read. -/
  log : ∀ s : Source, s.Closed good → ∀ p ∈ m.log s, good p.1 ∧ s p.1 = .ok p.2

namespace Reading.Confined

variable {α β : Type} {good : Key → Prop} {P : α → Prop} {Q : β → Prop}

/-! ## Rules -/

theorem give {a : α} (h : P a) : (pure a : Reading α).Confined good P := by
  refine ⟨fun _ _ _ _ => rfl, fun s b _ hb => ?_, fun s _ p hp => ?_⟩
  · obtain rfl := Except.ok.inj hb
    exact h
  · cases hp

theorem fail (e : Fault) : (Reading.fail e : Reading α).Confined good P := by
  refine ⟨fun _ _ _ _ => rfl, fun s b _ hb => ?_, fun s _ p hp => ?_⟩
  · cases hb
  · cases hp

theorem bind {m : Reading α} {f : α → Reading β} (hm : m.Confined good P)
    (hf : ∀ a, P a → (f a).Confined good Q) : (m >>= f).Confined good Q := by
  refine ⟨fun s s' hs hag => ?_, fun s b hs hb => ?_, fun s hs p hp => ?_⟩
  · show Reading.andThen m f s = Reading.andThen m f s'
    simp only [Reading.andThen]
    rw [← hm.same s s' hs hag]
    obtain ⟨r, hr⟩ : ∃ r, m s = r := ⟨_, rfl⟩
    rw [hr]
    rcases r with ⟨e | a, log⟩
    · rfl
    · have ha : P a := hm.answer s a hs (by rw [Reading.answer, hr])
      simp only
      rw [(hf a ha).same s s' hs hag]
  · rw [answer_bind] at hb
    cases ha : m.answer s with
    | error e =>
      rw [ha] at hb
      cases hb
    | ok a =>
      rw [ha] at hb
      exact (hf a (hm.answer s a hs ha)).answer s b hs hb
  · rw [log_bind, List.mem_append] at hp
    rcases hp with hp | hp
    · exact hm.log s hs p hp
    · cases ha : m.answer s with
      | error e =>
        rw [ha] at hp
        cases hp
      | ok a =>
        rw [ha] at hp
        exact (hf a (hm.answer s a hs ha)).log s hs p hp

theorem entity {k : Key} (hk : good k) :
    (Reading.entity k).Confined good (Entity.Within good) := by
  refine ⟨fun s s' _ hag => ?_, fun s e hs he => ?_, fun s _ p hp => ?_⟩
  · simp only [Reading.entity]
    rw [hag k hk]
  · rw [answer_entity] at he
    exact hs k e hk he
  · have hkey : p.1 = k := by
      rw [Reading.log, Reading.entity] at hp
      split at hp
      · rw [List.mem_singleton.mp hp]
      · cases hp
    exact ⟨hkey ▸ hk, entity_of_mem_log_entity hp⟩

theorem orAbsent {m : Reading α} (hm : m.Confined good P) :
    m.orAbsent.Confined good fun o => ∀ a, o = some a → P a := by
  refine ⟨fun s s' hs hag => ?_, fun s o hs ho a ha => ?_, fun s hs p hp => ?_⟩
  · simp only [Reading.orAbsent]
    rw [hm.same s s' hs hag]
  · subst ha
    rw [answer_orAbsent] at ho
    split at ho
    · next b hb =>
      obtain rfl := Option.some.inj (Except.ok.inj ho)
      exact hm.answer s b hs hb
    · split at ho
      · cases ho
      · cases ho
  · refine hm.log s hs p ?_
    have hlog : m.orAbsent.log s = m.log s := by
      simp only [Reading.log, Reading.orAbsent]
      split <;> simp_all
    rwa [hlog] at hp

/-! ## Segments -/

/-- All keys of a set of keys are among some keys. -/
def All (good : Key → Prop) (ks : Keys) : Prop := ∀ k ∈ ks, good k

theorem all_empty : All good ∅ := fun k hk => by simp at hk

theorem all_insert {k : Key} {ks : Keys} (hk : good k) (hks : All good ks) :
    All good (ks.insert k) := by
  intro l hl
  rcases Keys.mem_insert_iff.mp hl with rfl | hl
  · exact hk
  · exact hks l hl

theorem all_ofList {ks : List Key} (h : ∀ k ∈ ks, good k) : All good (Keys.ofList ks) :=
  fun k hk => h k (Keys.mem_ofList.mp hk)

theorem all_addAll {s : Keys} {ks : List Key} (hs : All good s) (h : ∀ k ∈ ks, good k) :
    All good (Keys.addAll s ks) :=
  fun k hk => (Keys.mem_addAll.mp hk).elim (hs k) (h k)

theorem all_union {s t : Keys} (hs : All good s) (ht : All good t) : All good (s ∪ t) :=
  fun k hk => (Std.ExtTreeSet.mem_union_iff.mp hk).elim (hs k) (ht k)

theorem all_toList {s : Keys} (hs : All good s) : ∀ k ∈ s.toList, good k :=
  fun k hk => hs k (Std.ExtTreeSet.mem_toList.mp hk)

theorem statements_good {e : Entity} (he : e.Within good) (d : Direction) (p : Key) :
    ∀ k ∈ d.statements p e, good k := by
  intro k hk
  obtain ⟨x, hx, rfl⟩ := List.mem_map.mp hk
  exact (he.edges d x (List.mem_filter.mp hx).1).2

theorem hops_good {e : Entity} (he : e.Within good) (d : Direction) (p : Key) :
    ∀ k ∈ d.hops p e, good k := by
  intro k hk
  rcases List.mem_append.mp hk with hk | hk
  · obtain ⟨x, hx, rfl⟩ := List.mem_map.mp hk
    exact (he.edges d x (List.mem_filter.mp hx).1).2
  · exact statements_good he d p k hk

theorem statementPairs_good {e : Entity} (he : e.Within good) (d : Direction) :
    ∀ p ∈ Entity.statementPairs (d.edges e), good p.1 ∧ good p.2 := by
  intro p hp
  obtain ⟨x, hx, rfl⟩ := List.mem_map.mp hp
  exact he.edges d x (List.mem_filter.mp hx).1

theorem endpointPairs_good {e : Entity} (he : e.Within good) :
    ∀ p ∈ e.endpointPairs, good p.1 ∧ good p.2 := by
  intro p hp
  obtain ⟨x, hx, rfl⟩ := List.mem_map.mp hp
  exact he.endpoints x (mem_sortedUnique.mp hx)

/-- What was reached is among some keys. -/
def AllReached (good : Key → Prop) (r : Reach) : Prop := All good r.reached

/-- An exploration ends when nothing waits. -/
theorem explore_of_nil {hops : Entity → List Key} {s : Source} {queue : List Key}
    {seen reached : Keys} (hnext : queue.dropWhile seen.contains = []) :
    Reading.explore hops s queue seen reached = (.ok ⟨reached, seen⟩, []) := by
  rw [Reading.explore]
  split
  · rfl
  · next heq =>
    rw [hnext] at heq
    cases heq

/-- An exploration fails at a key that waits and cannot be read. -/
theorem explore_of_error {hops : Entity → List Key} {s : Source} {queue rest : List Key}
    {seen reached : Keys} {k : Key} {e : Fault}
    (hnext : queue.dropWhile seen.contains = k :: rest) (he : s k = .error e) :
    Reading.explore hops s queue seen reached = (.error (.brokenWalk k e), []) := by
  rw [Reading.explore]
  split
  · next heq =>
    rw [hnext] at heq
    cases heq
  · next heq =>
    rw [hnext] at heq
    obtain ⟨rfl, rfl⟩ := List.cons.inj heq
    rw [he]

/-- An exploration goes on with what the entity of the next key hops to. -/
theorem explore_of_ok {hops : Entity → List Key} {s : Source} {queue rest : List Key}
    {seen reached : Keys} {k : Key} {e : Entity} {answer : Except Fault Reach} {log : ReadLog}
    (hnext : queue.dropWhile seen.contains = k :: rest) (he : s k = .ok e)
    (hmore : Reading.explore hops s (rest ++ (hops e).filter fun t => !reached.contains t)
      (seen.insert k) (Keys.addAll reached (hops e)) = (answer, log)) :
    Reading.explore hops s queue seen reached = (answer, (k, e) :: log) := by
  rw [Reading.explore]
  split
  · next heq =>
    rw [hnext] at heq
    cases heq
  · next heq =>
    rw [hnext] at heq
    obtain ⟨rfl, rfl⟩ := List.cons.inj heq
    simp only [he, hmore]

theorem explore {hops : Entity → List Key}
    (hhops : ∀ e : Entity, e.Within good → ∀ k ∈ hops e, good k) {queue : List Key}
    {seen reached : Keys} (hq : ∀ k ∈ queue, good k) (hr : All good reached) :
    Confined good (AllReached good) fun s => Reading.explore hops s queue seen reached := by
  have hrun : ∀ s : Source, s.Closed good →
      (∀ s' : Source, (∀ k, good k → s k = s' k) →
        Reading.explore hops s queue seen reached = Reading.explore hops s' queue seen reached) ∧
      (∀ r, (Reading.explore hops s queue seen reached).1 = .ok r → AllReached good r) ∧
      ∀ p ∈ (Reading.explore hops s queue seen reached).2, good p.1 ∧ s p.1 = .ok p.2 := by
    intro s hs
    fun_induction Reading.explore hops s queue seen reached with
    | case1 queue seen reached hnext =>
      refine ⟨fun s' _ => ?_, fun r h => ?_, fun p hp => ?_⟩
      · exact (explore_of_nil hnext).symm
      · obtain rfl := Except.ok.inj h
        exact hr
      · cases hp
    | case2 queue seen reached k rest hnext e he =>
      have hk : good k := hq k ((List.dropWhile_suffix _).subset (hnext ▸ List.mem_cons_self))
      refine ⟨fun s' hag => ?_, fun r h => ?_, fun p hp => ?_⟩
      · exact (explore_of_error hnext (hag k hk ▸ he)).symm
      · cases h
      · cases hp
    | case3 queue seen reached k rest hnext e he targets waiting answer log hlog ih =>
      have hk : good k := hq k ((List.dropWhile_suffix _).subset (hnext ▸ List.mem_cons_self))
      have htargets := hhops e (hs k e hk he)
      obtain ⟨hsame, hreached, hread⟩ := ih (fun l hl => by
        rcases List.mem_append.mp hl with hl | hl
        · exact hq l ((List.dropWhile_suffix _).subset (hnext ▸ List.mem_cons_of_mem _ hl))
        · exact htargets l (List.mem_filter.mp hl).1) (all_addAll hr htargets)
      rw [hlog] at hsame hreached hread
      refine ⟨fun s' hag => ?_, hreached, fun p hp => ?_⟩
      · exact (explore_of_ok hnext (hag k hk ▸ he) (hsame s' hag).symm).symm
      · rcases List.mem_cons.mp hp with rfl | hp
        · exact ⟨hk, he⟩
        · exact hread p hp
  exact ⟨fun s s' hs hag => (hrun s hs).1 s' hag, fun s r hs h => (hrun s hs).2.1 r h,
    fun s hs => (hrun s hs).2.2⟩

theorem spread {d : Direction} {p start : Key} {e : Entity} (he : e.Within good) :
    (Reading.spread (d.hops p) start e).Confined good (AllReached good) :=
  explore (fun _ he => hops_good he d p) (hops_good he d p) (all_ofList (hops_good he d p))

theorem follow {d : Direction} {seg : Segment} {start : Key} (hk : good start) :
    (Reading.follow d start seg).Confined good (AllReached good) := by
  have hhere : All good ((∅ : Keys).insert start) := all_insert hk all_empty
  refine (entity hk).bind fun e he => ?_
  cases hq : seg.quantifier with
  | single => exact give (all_ofList (statements_good he d seg.predicate))
  | zeroOne => exact give (all_addAll hhere (statements_good he d seg.predicate))
  | onePlus => exact spread he
  | zeroPlus => exact (spread he).bind fun r hr => give (all_insert hk hr)

/-! ## Paths -/

theorem advance {d : Direction} {seg : Segment} {r : Reach} {k : Key} (hr : AllReached good r)
    (hk : good k) : (Reading.advance d seg r k).Confined good (AllReached good) := by
  rw [Reading.advance]
  split
  · exact give hr
  · refine (follow hk).orAbsent.bind fun o ho => ?_
    cases o with
    | none => exact give hr
    | some s => exact give (all_union hr (ho s rfl))

theorem advanceAll {d : Direction} {seg : Segment} {r : Reach} {ks : List Key}
    (hr : AllReached good r) (hks : ∀ k ∈ ks, good k) :
    (Reading.advanceAll d seg r ks).Confined good (AllReached good) := by
  induction ks generalizing r with
  | nil => exact give hr
  | cons k ks ih =>
    exact (advance hr (hks k List.mem_cons_self)).bind fun r hr =>
      ih hr fun k hk => hks k (List.mem_cons_of_mem _ hk)

theorem walk {d : Direction} {segs : List Segment} {frontier : Keys} (hf : All good frontier) :
    (Reading.walk d segs frontier).Confined good (All good) := by
  induction segs generalizing frontier with
  | nil => exact give hf
  | cons seg segs ih =>
    have hstart : AllReached good ⟨∅, ∅⟩ := all_empty
    exact (advanceAll hstart (all_toList hf)).bind fun r hr => ih hr

theorem singleton_good {k : Key} (hk : good k) : All good (Keys.ofList [k]) :=
  all_ofList fun _ hl => List.mem_singleton.mp hl ▸ hk

theorem objects {s : Key} {segs : List Segment} (hs : good s) :
    (Reading.objects s segs).Confined good (All good) := walk (singleton_good hs)

theorem subjects {o : Key} {segs : List Segment} (ho : good o) :
    (Reading.subjects o segs).Confined good (All good) := walk (singleton_good ho)

/-! ## Pairs -/

/-- All pairs of a list are of some keys. -/
def Pairs (good : Key → Prop) (ps : List (Key × Key)) : Prop := ∀ p ∈ ps, good p.1 ∧ good p.2

theorem pairs_nil : Pairs good [] := List.forall_mem_nil _

theorem pairs_append {ps qs : List (Key × Key)} (hp : Pairs good ps) (hq : Pairs good qs) :
    Pairs good (ps ++ qs) := fun p h => (List.mem_append.mp h).elim (hp p) (hq p)

theorem predicatePairs {p : Key} (hp : good p) :
    (Reading.predicatePairs p).Confined good (Pairs good) := by
  refine (entity hp).orAbsent.bind fun o ho => ?_
  cases o with
  | none => exact give pairs_nil
  | some e => exact give (endpointPairs_good (ho e rfl))

theorem pathStarts {segs : List Segment} (hp : ∀ seg ∈ segs, good seg.predicate) :
    (Reading.pathStarts segs).Confined good (All good) := by
  induction segs with
  | nil => exact give all_empty
  | cons seg segs ih =>
    refine (predicatePairs (hp seg List.mem_cons_self)).bind fun ps hps => ?_
    have hhere : All good (Keys.ofList (ps.map (·.1))) := by
      refine all_ofList fun k hk => ?_
      obtain ⟨p, hp, rfl⟩ := List.mem_map.mp hk
      exact (hps p hp).1
    simp only
    split
    · exact (ih fun seg h => hp seg (List.mem_cons_of_mem _ h)).bind fun ks hks =>
        give (all_union hhere hks)
    · exact give hhere

theorem pairsFrom {segs : List Segment} {ks : List Key} (hks : ∀ k ∈ ks, good k) :
    (Reading.pairsFrom segs ks).Confined good (Pairs good) := by
  induction ks with
  | nil => exact give pairs_nil
  | cons k ks ih =>
    have hk := hks k List.mem_cons_self
    refine (objects hk).bind fun os hos => ?_
    refine (ih fun k h => hks k (List.mem_cons_of_mem _ h)).bind fun rest hrest => ?_
    refine give (pairs_append (fun p hp => ?_) hrest)
    obtain ⟨o, ho, rfl⟩ := List.mem_map.mp hp
    exact ⟨hk, all_toList hos o ho⟩

theorem pathPairs {segs : List Segment} (hp : ∀ seg ∈ segs, good seg.predicate) :
    (Reading.pathPairs segs).Confined good (Pairs good) := by
  simp only [Reading.pathPairs]
  split
  · exact give pairs_nil
  · exact predicatePairs (hp _ List.mem_cons_self)
  · exact (pathStarts hp).bind fun ks hks => pairsFrom (all_toList hks)

/-! ## Statements around an entity -/

theorem predicatesBetween {s o : Key} (hs : good s) :
    (Reading.predicatesBetween s o).Confined good (All good) := by
  refine (entity hs).orAbsent.bind fun x hx => ?_
  cases x with
  | none => exact give all_empty
  | some e =>
    refine give (all_ofList fun k hk => ?_)
    obtain ⟨p, hp, rfl⟩ := List.mem_map.mp hk
    exact (statementPairs_good (hx e rfl) .forward p (List.mem_filter.mp hp).1).1

theorem statementsInto {o : Key} (ho : good o) :
    (Reading.statementsInto o).Confined good (Pairs good) := by
  refine (entity ho).orAbsent.bind fun x hx => ?_
  cases x with
  | none => exact give pairs_nil
  | some e =>
    refine give fun p hp => ?_
    obtain ⟨q, hq, rfl⟩ := List.mem_map.mp hp
    exact (statementPairs_good (hx e rfl) .backward q hq).symm

theorem statementsFrom {s : Key} (hs : good s) :
    (Reading.statementsFrom s).Confined good (Pairs good) := by
  refine (entity hs).orAbsent.bind fun x hx => ?_
  cases x with
  | none => exact give pairs_nil
  | some e => exact give (statementPairs_good (hx e rfl) .forward)

end Reading.Confined

end TripleStore
