import Mathlib.Data.List.TakeWhile
import TripleStore.Proofs.Walk.Shown

/-!
# Following a segment

A breadth-first exploration visits exactly the entities that hops lead to, the
start included, and finds exactly those one hop or more away.  The invariant of
a round is `Explored`: what was found is what hops from visited entities lead
to, and each of it was visited or waits to be.

From this follows what a segment finds from a start, for each quantifier and in
both directions.  Shortcuts do not change what is found, as each of them stands
for a walk over statements.
-/

open Relation

namespace TripleStore

namespace Reading

/-! ## Exploring -/

/-- One hop between entities that can be read. -/
def Step (hops : Entity → List Key) (src : Source) (a b : Key) : Prop :=
  ∃ e, src a = .ok e ∧ b ∈ hops e

/-- The state of an exploration from a start: what was visited, what waits, and
what was found. -/
structure Explored (hops : Entity → List Key) (src : Source) (start : Key) (queue : List Key)
    (seen reached : Keys) : Prop where
  /-- The start was visited. -/
  start_seen : start ∈ seen
  /-- Hops lead to what was visited or what waits. -/
  closed : ∀ a ∈ seen, ∀ b, Step hops src a b → b ∈ seen ∨ b ∈ queue
  /-- What was found is what hops lead to. -/
  found : ∀ b, b ∈ reached ↔ ∃ a ∈ seen, Step hops src a b
  /-- Nothing is visited that hops from the start do not lead to. -/
  sound : ∀ b, b ∈ seen ∨ b ∈ queue → ReflTransGen (Step hops src) start b

variable {hops : Entity → List Key} {src : Source} {start : Key}

/-- What is left of a queue waited in it. -/
theorem mem_queue_of_dropWhile {queue rest : List Key} {seen : Keys} {k b : Key}
    (hq : queue.dropWhile seen.contains = k :: rest) (hb : b ∈ k :: rest) : b ∈ queue := by
  have hsub := (List.dropWhile_suffix (l := queue) seen.contains).subset
  exact hsub (hq ▸ hb)

/-- A key that waited was visited before, is the next one to visit, or waits still. -/
theorem mem_or_of_mem_queue {queue rest : List Key} {seen : Keys} {k b : Key}
    (hq : queue.dropWhile seen.contains = k :: rest) (hb : b ∈ queue) :
    b ∈ seen ∨ b = k ∨ b ∈ rest := by
  rw [← List.takeWhile_append_dropWhile (l := queue) (p := seen.contains), hq,
    List.mem_append, List.mem_cons] at hb
  rcases hb with hb | hb
  · exact .inl (Std.ExtTreeSet.contains_iff_mem.mp (List.mem_takeWhile_imp hb))
  · exact .inr hb

/-- The steps from an entity that was read. -/
theorem step_iff_of_read {a b : Key} {e : Entity} (he : src a = .ok e) :
    Step hops src a b ↔ b ∈ hops e := by
  constructor
  · rintro ⟨e', he', hb⟩
    rw [he] at he'
    cases he'
    exact hb
  · intro hb
    exact ⟨e, he, hb⟩

/-- A visit keeps the state of an exploration. -/
theorem Explored.visit {queue rest : List Key} {seen reached : Keys} {k : Key} {e : Entity}
    (h : Explored hops src start queue seen reached)
    (hq : queue.dropWhile seen.contains = k :: rest) (he : src k = .ok e) :
    Explored hops src start (rest ++ (hops e).filter fun t => !reached.contains t)
      (seen.insert k) (Keys.addAll reached (hops e)) := by
  have hkq : k ∈ queue := mem_queue_of_dropWhile hq List.mem_cons_self
  have hstep : ∀ b, Step hops src k b ↔ b ∈ hops e := fun _ => step_iff_of_read he
  have hclosed : ∀ a ∈ seen, ∀ b, Step hops src a b → b ∈ seen.insert k ∨ b ∈ rest := by
    intro a ha b hab
    rcases h.closed a ha b hab with hb | hb
    · exact .inl (Keys.mem_insert_iff.mpr (.inr hb))
    · rcases mem_or_of_mem_queue hq hb with hb | rfl | hb
      · exact .inl (Keys.mem_insert_iff.mpr (.inr hb))
      · exact .inl (Keys.mem_insert_iff.mpr (.inl rfl))
      · exact .inr hb
  refine ⟨Keys.mem_insert_iff.mpr (.inr h.start_seen), ?_, ?_, ?_⟩
  · intro a ha b hab
    rcases Keys.mem_insert_iff.mp ha with rfl | ha
    · have hb := (hstep b).mp hab
      by_cases hr : b ∈ reached
      · obtain ⟨a, ha, hab⟩ := (h.found b).mp hr
        exact (hclosed a ha b hab).imp_right fun hb => List.mem_append_left _ hb
      · refine .inr (List.mem_append_right _ (List.mem_filter.mpr ⟨hb, ?_⟩))
        rwa [Bool.not_eq_true', ← Bool.not_eq_true, Std.ExtTreeSet.contains_iff_mem]
    · exact (hclosed a ha b hab).imp_right fun hb => List.mem_append_left _ hb
  · intro b
    rw [Keys.mem_addAll, h.found]
    constructor
    · rintro (⟨a, ha, hab⟩ | hb)
      · exact ⟨a, Keys.mem_insert_iff.mpr (.inr ha), hab⟩
      · exact ⟨k, Keys.mem_insert_iff.mpr (.inl rfl), (hstep b).mpr hb⟩
    · rintro ⟨a, ha, hab⟩
      rcases Keys.mem_insert_iff.mp ha with rfl | ha
      · exact .inr ((hstep b).mp hab)
      · exact .inl ⟨a, ha, hab⟩
  · have hk := h.sound k (.inr hkq)
    have hrest : ∀ b ∈ rest, ReflTransGen (Step hops src) start b := by
      intro b hb
      exact h.sound b (.inr (mem_queue_of_dropWhile hq (List.mem_cons_of_mem _ hb)))
    rintro b (hb | hb)
    · rcases Keys.mem_insert_iff.mp hb with rfl | hb
      · exact hk
      · exact h.sound b (.inl hb)
    · rcases List.mem_append.mp hb with hb | hb
      · exact hrest b hb
      · exact hk.tail ((hstep b).mpr (List.mem_filter.mp hb).1)

/-- When nothing waits any more, everything hops lead to was visited. -/
theorem Explored.done {queue : List Key} {seen reached : Keys}
    (h : Explored hops src start queue seen reached)
    (hq : queue.dropWhile seen.contains = []) :
    (∀ b, b ∈ seen ↔ ReflTransGen (Step hops src) start b) ∧
      ∀ b, b ∈ reached ↔ TransGen (Step hops src) start b := by
  have hqueue : ∀ b ∈ queue, b ∈ seen := by
    intro b hb
    exact Std.ExtTreeSet.contains_iff_mem.mp (List.dropWhile_eq_nil_iff.mp hq b hb)
  have hseen : ∀ b, b ∈ seen ↔ ReflTransGen (Step hops src) start b := by
    intro b
    refine ⟨fun hb => h.sound b (.inl hb), fun hb => ?_⟩
    induction hb with
    | refl => exact h.start_seen
    | tail _ hbc ih => exact (h.closed _ ih _ hbc).elim id (hqueue _)
  refine ⟨hseen, fun b => ?_⟩
  rw [h.found, TransGen.tail'_iff]
  simp only [hseen]

/-- An exploration in which everything can be read finds what hops lead to. -/
theorem explore_spec {queue : List Key} {seen reached : Keys}
    (h : Explored hops src start queue seen reached)
    (hread : ∀ b, ReflTransGen (Step hops src) start b → ∃ e, src b = .ok e) :
    ∃ r, (explore hops src queue seen reached).1 = .ok r ∧
      (∀ b, b ∈ r.seen ↔ ReflTransGen (Step hops src) start b) ∧
      ∀ b, b ∈ r.reached ↔ TransGen (Step hops src) start b := by
  fun_induction explore hops src queue seen reached with
  | case1 queue seen reached hq => exact ⟨_, rfl, h.done hq⟩
  | case2 queue seen reached k rest hq err herr =>
    have hk : k ∈ queue := mem_queue_of_dropWhile hq List.mem_cons_self
    obtain ⟨e, he⟩ := hread k (h.sound k (.inr hk))
    rw [herr] at he
    cases he
  | case3 queue seen reached k rest hq e he targets waiting answer log hlog ih =>
    obtain ⟨r, hr, hspec⟩ := ih (h.visit hq he)
    rw [hlog] at hr
    exact ⟨r, hr, hspec⟩

theorem mem_singleton_iff {a : Key} : a ∈ (∅ : Keys).insert start ↔ start = a := by
  rw [Keys.mem_insert_iff]
  simp

/-- The state in which an exploration from a start that was read begins. -/
theorem explored_start {first : Entity} (hfirst : src start = .ok first) :
    Explored hops src start (hops first) ((∅ : Keys).insert start)
      (Keys.ofList (hops first)) := by
  have hstep : ∀ b, Step hops src start b ↔ b ∈ hops first := fun _ => step_iff_of_read hfirst
  refine ⟨mem_singleton_iff.mpr rfl, ?_, ?_, ?_⟩
  · intro a ha b hab
    obtain rfl := mem_singleton_iff.mp ha
    exact .inr ((hstep b).mp hab)
  · intro b
    rw [Keys.mem_ofList]
    constructor
    · intro hb
      exact ⟨start, mem_singleton_iff.mpr rfl, (hstep b).mpr hb⟩
    · rintro ⟨a, ha, hab⟩
      obtain rfl := mem_singleton_iff.mp ha
      exact (hstep b).mp hab
  · rintro b (hb | hb)
    · obtain rfl := mem_singleton_iff.mp hb
      exact .refl
    · exact .single ((hstep b).mpr hb)

/-- An exploration from a start that was read finds what hops lead to. -/
theorem spread_spec {first : Entity} (hfirst : src start = .ok first)
    (hread : ∀ b, ReflTransGen (Step hops src) start b → ∃ e, src b = .ok e) :
    ∃ r, (spread hops start first).answer src = .ok r ∧
      (∀ b, b ∈ r.seen ↔ ReflTransGen (Step hops src) start b) ∧
      ∀ b, b ∈ r.reached ↔ TransGen (Step hops src) start b :=
  explore_spec (explored_start hfirst) hread

/-! ## Steps over shown statements -/

section Shown

variable {here : UInt32 × UInt64} {ss : List Statement} {d : Direction} {p : Key}

/-- A step from a node stands for a walk over statements. -/
theorem Step.transGen (hs : src.Presents here ss) (hp : p.place = here) {a b : Key}
    (ha : IsNode ss a) (h : Step (d.hops p) src a b) : TransGen (d.Hops ss p) a b := by
  obtain ⟨e, he, hb⟩ := h
  obtain ⟨e', he', rfl, hd⟩ := hs.present a ha
  rw [he] at he'
  cases he'
  exact hd.transGen_of_mem_hops hs hp hb

/-- Every statement is a step. -/
theorem step_of_hops (hs : src.Presents here ss) (hp : p.place = here) {a b : Key}
    (h : d.Hops ss p a b) : Step (d.hops p) src a b := by
  obtain ⟨e, he, rfl, hd⟩ := hs.present a h.isNode.1
  exact ⟨e, he, hd.mem_hops_of_hops hs hp h⟩

theorem isNode_of_transGen {a b : Key} (h : TransGen (d.Hops ss p) a b) : IsNode ss b := by
  obtain ⟨c, -, hcb⟩ := TransGen.tail'_iff.mp h
  exact hcb.isNode.2

/-- Steps reach from a node what its statements reach. -/
theorem transGen_step_iff (hs : src.Presents here ss) (hp : p.place = here) {a b : Key}
    (ha : IsNode ss a) : TransGen (Step (d.hops p) src) a b ↔ TransGen (d.Hops ss p) a b := by
  constructor
  · intro h
    induction h with
    | single hab => exact hab.transGen hs hp ha
    | tail _ hbc ih => exact ih.trans (hbc.transGen hs hp (isNode_of_transGen ih))
  · intro h
    exact TransGen.mono (fun _ _ hab => step_of_hops hs hp hab) _ _ h

theorem reflTransGen_step_iff (hs : src.Presents here ss) (hp : p.place = here) {a b : Key}
    (ha : IsNode ss a) :
    ReflTransGen (Step (d.hops p) src) a b ↔ ReflTransGen (d.Hops ss p) a b := by
  rw [reflTransGen_iff_eq_or_transGen, reflTransGen_iff_eq_or_transGen,
    transGen_step_iff hs hp ha]

/-- All that steps reach from a node can be read. -/
theorem readable_of_step (hs : src.Presents here ss) (hp : p.place = here) {a b : Key}
    (ha : IsNode ss a) (h : ReflTransGen (Step (d.hops p) src) a b) : ∃ e, src b = .ok e := by
  have hb : IsNode ss b := by
    rcases reflTransGen_iff_eq_or_transGen.mp ((reflTransGen_step_iff hs hp ha).mp h) with rfl | h
    · exact ha
    · exact isNode_of_transGen h
  obtain ⟨e, he, -⟩ := hs.present b hb
  exact ⟨e, he⟩

/-! ## Following a segment -/

/-- What following a segment from a node finds: all that the segment relates to
it.  An entity visited on the way leads to nothing else. -/
structure Found (ss : List Statement) (d : Direction) (seg : Segment) (k : Key) (r : Reach) :
    Prop where
  /-- What was reached is what the segment relates. -/
  reached : ∀ t, t ∈ r.reached ↔ d.Follows ss seg k t
  /-- What the segment relates to an entity seen was reached. -/
  seen : ∀ a ∈ r.seen, ∀ t, d.Follows ss seg a t → t ∈ r.reached

/-- A result that saw the start alone. -/
theorem Found.of_start {seg : Segment} {k : Key} {reached : Keys}
    (h : ∀ t, t ∈ reached ↔ d.Follows ss seg k t) :
    Found ss d seg k ⟨reached, (∅ : Keys).insert k⟩ := by
  refine ⟨h, ?_⟩
  intro a ha t hat
  obtain rfl := mem_singleton_iff.mp ha
  exact (h t).mpr hat

theorem follow_spec (hs : src.Presents here ss) {seg : Segment} (hp : seg.predicate.place = here)
    {k : Key} (hk : IsNode ss k) :
    ∃ r, (follow d k seg).answer src = .ok r ∧ Found ss d seg k r := by
  obtain ⟨e, he, rfl, hd⟩ := hs.present k hk
  obtain ⟨p, q⟩ := seg
  have hstart : (entity e.key).answer src = .ok e := by rw [answer_entity, he]
  obtain ⟨r, hr, hseen, hreached⟩ :=
    @spread_spec (d.hops p) src e.key e he fun b hb => readable_of_step hs hp hk hb
  cases q with
  | single =>
    refine ⟨_, by rw [follow, answer_bind, hstart]; rfl, .of_start fun t => ?_⟩
    rw [Keys.mem_ofList]
    exact hd.mem_statements hs hp
  | zeroOne =>
    refine ⟨_, by rw [follow, answer_bind, hstart]; rfl, .of_start fun t => ?_⟩
    rw [Keys.mem_addAll, mem_singleton_iff, hd.mem_statements hs hp, or_comm]
    exact or_congr_right ⟨fun h => ⟨hk, h⟩, And.right⟩
  | onePlus =>
    refine ⟨r, by rw [follow, answer_bind, hstart]; exact hr, fun t => ?_, fun a ha t hat => ?_⟩
    · rw [hreached, transGen_step_iff hs hp hk]
      exact Iff.rfl
    · have hka := (reflTransGen_step_iff hs hp hk).mp ((hseen a).mp ha)
      exact (hreached t).mpr ((transGen_step_iff hs hp hk).mpr (TransGen.trans_right hka hat))
  | zeroPlus =>
    have hany : ∀ t, t ∈ r.reached.insert e.key ↔ ReflTransGen (d.Hops ss p) e.key t := by
      intro t
      rw [Keys.mem_insert_iff, hreached, transGen_step_iff hs hp hk,
        reflTransGen_iff_eq_or_transGen, eq_comm]
    refine ⟨{ r with reached := r.reached.insert e.key }, ?_, fun t => ?_, fun a ha t hat => ?_⟩
    · rw [follow, answer_bind, hstart]
      show ((spread (d.hops p) e.key e >>= fun r =>
        pure { r with reached := r.reached.insert e.key }) : Reading Reach).answer src = _
      rw [answer_bind, hr]
      rfl
    · rw [hany]
      exact ⟨fun h => ⟨hk, h⟩, And.right⟩
    · have hka := (reflTransGen_step_iff hs hp hk).mp ((hseen a).mp ha)
      exact (hany t).mpr (hka.trans hat.2)

/-- From a key without an entity nothing can be followed. -/
theorem follow_absent {seg : Segment} {k : Key} (hk : src k = .error (.notFound k)) :
    (follow d k seg).answer src = .error (.notFound k) := by
  rw [follow, answer_bind, answer_entity, hk]
  rfl

end Shown

end Reading

end TripleStore
