import TripleStore.Proofs.Walk.Explore
import TripleStore.Walk.Queue

/-!
# One queue for all quantifiers

Following a segment with one queue is the same as following it otherwise.  The two
queues of a longer walk differ.  One of them leaves out what was visited, and the
other one what waits already.  But they agree on the keys that are still to be
visited and on their order, which is what `fresh` gives of a queue, and the visits
are made in this order.
-/

namespace TripleStore

namespace Reading

/-! ## Fresh keys -/

/-- The keys of a queue that are to be visited, each where it waits first. -/
def fresh (seen : Keys) : List Key → List Key
  | [] => []
  | k :: ks => if k ∈ seen then fresh seen ks else k :: fresh (seen.insert k) ks

variable {seen : Keys} {k : Key} {queue rest : List Key}

theorem fresh_dropWhile (seen : Keys) (queue : List Key) :
    fresh seen (queue.dropWhile seen.contains) = fresh seen queue := by
  induction queue with
  | nil => rfl
  | cons k queue ih =>
    by_cases hk : k ∈ seen
    · rw [List.dropWhile_cons_of_pos (Std.ExtTreeSet.contains_iff_mem.mpr hk), ih, fresh, if_pos hk]
    · rw [List.dropWhile_cons_of_neg (by rwa [Std.ExtTreeSet.contains_iff_mem])]

theorem fresh_of_next (h : queue.dropWhile seen.contains = k :: rest) :
    fresh seen queue = k :: fresh (seen.insert k) rest := by
  rw [← fresh_dropWhile, h, fresh, if_neg (Keys.new_of_dropWhile h)]

theorem dropWhile_of_fresh_nil (h : fresh seen queue = []) :
    queue.dropWhile seen.contains = [] := by
  cases hnext : queue.dropWhile seen.contains with
  | nil => rfl
  | cons k rest =>
    rw [fresh_of_next hnext] at h
    cases h

theorem next_of_fresh {ks : List Key} (h : fresh seen queue = k :: ks) :
    ∃ rest, queue.dropWhile seen.contains = k :: rest ∧ fresh (seen.insert k) rest = ks := by
  cases hnext : queue.dropWhile seen.contains with
  | nil =>
    rw [← fresh_dropWhile, hnext] at h
    cases h
  | cons l rest =>
    rw [fresh_of_next hnext] at h
    obtain ⟨rfl, hrest⟩ := List.cons.inj h
    exact ⟨rest, rfl, hrest⟩

theorem insert_eq_self (h : k ∈ seen) : seen.insert k = seen := by
  refine Std.ExtTreeSet.ext_mem fun l => ?_
  rw [Keys.mem_insert_iff]
  constructor
  · rintro (rfl | hl)
    · exact h
    · exact hl
  · exact .inr

theorem fresh_append (seen : Keys) (queue more : List Key) :
    fresh seen (queue ++ more) = fresh seen queue ++ fresh (Keys.addAll seen queue) more := by
  induction queue generalizing seen with
  | nil => rfl
  | cons k queue ih =>
    show _ = _ ++ fresh (Keys.addAll (seen.insert k) queue) more
    rw [List.cons_append, fresh, fresh]
    by_cases hk : k ∈ seen
    · rw [if_pos hk, if_pos hk, ih, insert_eq_self hk]
    · rw [if_neg hk, if_neg hk, ih, List.cons_append]

/-- Visited keys may be left out. -/
theorem fresh_filter {P : Key → Bool} (h : ∀ k, P k = false → k ∈ seen) :
    fresh seen (queue.filter P) = fresh seen queue := by
  induction queue generalizing seen with
  | nil => rfl
  | cons k queue ih =>
    cases hP : P k with
    | false => rw [List.filter_cons_of_neg (by simp [hP]), ih h, fresh, if_pos (h k hP)]
    | true =>
      rw [List.filter_cons_of_pos hP, fresh, fresh, ih h,
        ih fun l hl => Keys.mem_insert_iff.mpr (.inr (h l hl))]

theorem addAll_fresh (seen : Keys) (queue : List Key) :
    Keys.addAll seen (fresh seen queue) = Keys.addAll seen queue := by
  induction queue generalizing seen with
  | nil => rfl
  | cons k queue ih =>
    show _ = Keys.addAll (seen.insert k) queue
    rw [fresh]
    by_cases hk : k ∈ seen
    · rw [if_pos hk, ih, insert_eq_self hk]
    · rw [if_neg hk, ← ih (seen.insert k)]
      rfl

theorem not_contains_eq_false {ks : Keys} : (!ks.contains k) = false ↔ k ∈ ks := by
  rw [Bool.not_eq_false', Std.ExtTreeSet.contains_iff_mem]

/-! ## Rounds -/

variable {d : Direction} {seg : Segment} {start : Key} {first : Entity} {src : Source}

/-- Visited keys at the front of the queue are passed over. -/
theorem serve_dropWhile (queue : List Key) (seen reached : Keys) :
    serve d seg start first src (queue.dropWhile seen.contains) seen reached =
      serve d seg start first src queue seen reached := by
  induction queue with
  | nil => rfl
  | cons k queue ih =>
    by_cases hk : k ∈ seen
    · have hpass : serve d seg start first src (k :: queue) seen reached =
          serve d seg start first src queue seen reached := by
        rw [serve, dif_pos hk]
      rw [List.dropWhile_cons_of_pos (Std.ExtTreeSet.contains_iff_mem.mpr hk), ih, hpass]
    · rw [List.dropWhile_cons_of_neg (by rwa [Std.ExtTreeSet.contains_iff_mem])]

/-- Two queues of a walk.  They agree on what is to be visited, all that was found was visited or
waits in the one, and all that waits in the other was found. -/
structure Aligned (seen reached : Keys) (queue waiting : List Key) : Prop where
  /-- The same keys are to be visited, in the same order. -/
  fresh_eq : fresh seen queue = fresh seen waiting
  /-- Nothing that was found is lost. -/
  pending : ∀ t ∈ reached, t ∈ seen ∨ t ∈ waiting
  /-- Nothing waits that was not found. -/
  found : ∀ t ∈ queue, t ∈ reached

/-- The queues have the same next key. -/
theorem Aligned.next {reached : Keys} {waiting : List Key} (h : Aligned seen reached queue waiting)
    (hnext : waiting.dropWhile seen.contains = k :: rest) :
    ∃ rest', queue.dropWhile seen.contains = k :: rest' ∧
      fresh (seen.insert k) rest' = fresh (seen.insert k) rest :=
  next_of_fresh (h.fresh_eq.trans (fresh_of_next hnext))

/-- A visit leaves the queues aligned.  To the one comes what was not visited, to the other what
was not found before. -/
theorem Aligned.visit {reached : Keys} {waiting rest' : List Key}
    (h : Aligned seen reached queue waiting)
    (hqueue : queue.dropWhile seen.contains = k :: rest')
    (hwaiting : waiting.dropWhile seen.contains = k :: rest)
    (hrest : fresh (seen.insert k) rest' = fresh (seen.insert k) rest) (targets : List Key) :
    Aligned (seen.insert k) (Keys.addAll reached targets)
      (rest' ++ targets.filter fun t => !(seen.insert k).contains t)
      (rest ++ targets.filter fun t => !reached.contains t) := by
  have hleft : ∀ t ∈ reached, t ∈ seen.insert k ∨ t ∈ rest := by
    intro t ht
    rw [Keys.mem_insert_iff, or_assoc]
    rcases h.pending t ht with ht | ht
    · exact .inr (.inl ht)
    · rcases mem_or_of_mem_queue hwaiting ht with ht | rfl | ht
      · exact .inr (.inl ht)
      · exact .inl rfl
      · exact .inr (.inr ht)
  constructor
  · -- what is left out of either queue was visited or waits already
    have hseen : Keys.addAll (seen.insert k) rest' = Keys.addAll (seen.insert k) rest := by
      rw [← addAll_fresh, hrest, addAll_fresh]
    rw [fresh_append, fresh_append, hrest, hseen, fresh_filter, fresh_filter]
    · intro t ht
      exact Keys.mem_addAll.mpr (hleft t (not_contains_eq_false.mp ht))
    · intro t ht
      exact Keys.mem_addAll.mpr (.inl (not_contains_eq_false.mp ht))
  · intro t ht
    by_cases hold : t ∈ reached
    · exact (hleft t hold).imp_right (List.mem_append_left _)
    · have ht := (Keys.mem_addAll.mp ht).resolve_left hold
      refine .inr (List.mem_append_right _ (List.mem_filter.mpr ⟨ht, ?_⟩))
      rwa [Bool.not_eq_true', ← Bool.not_eq_true, Std.ExtTreeSet.contains_iff_mem]
  · intro t ht
    rcases List.mem_append.mp ht with ht | ht
    · exact Keys.mem_addAll.mpr
        (.inl (h.found t (mem_queue_of_dropWhile hqueue (List.mem_cons_of_mem _ ht))))
    · exact Keys.mem_addAll.mpr (.inr (List.mem_filter.mp ht).1)

/-- Visits find what hops lead to.  The results may have more in them, such as the start, if a
visit adds no more than that. -/
def AddsHops (d : Direction) (seg : Segment) (more : Keys → Keys) : Prop :=
  ∀ (k : Key) (e : Entity) (seen reached : Keys), k ∈ reached →
    visit d seg k e seen (more reached) =
      (more (Keys.addAll reached (d.hops seg.predicate e)),
        (d.hops seg.predicate e).filter fun t => !seen.contains t)

theorem addsHops_onePlus (p : Key) : AddsHops d ⟨p, .onePlus⟩ id := fun _ _ _ _ _ => rfl

theorem addsHops_zeroPlus (p : Key) (start : Key) :
    AddsHops d ⟨p, .zeroPlus⟩ fun ks => ks.insert start := by
  intro k e seen reached hk
  refine Prod.ext (Std.ExtTreeSet.ext_mem fun l => ?_) rfl
  simp only [visit, Keys.mem_addAll, Keys.mem_insert_iff]
  constructor
  · rintro ((rfl | rfl | hl) | hl)
    · exact .inr (.inl hk)
    · exact .inl rfl
    · exact .inr (.inl hl)
    · exact .inr (.inr hl)
  · rintro (rfl | hl | hl)
    · exact .inl (.inr (.inl rfl))
    · exact .inl (.inr (.inr hl))
    · exact .inr hl

/-- A longer walk with one queue is an exploration. -/
theorem serve_eq_explore {more : Keys → Keys} (hvisit : AddsHops d seg more)
    (waiting : List Key) (seen reached : Keys) : ∀ queue, start ∈ seen →
      Aligned seen reached queue waiting →
    serve d seg start first src queue seen (more reached) =
      ((explore (d.hops seg.predicate) src waiting seen reached).1.map fun r =>
          { r with reached := more r.reached },
        (explore (d.hops seg.predicate) src waiting seen reached).2) := by
  fun_induction explore (d.hops seg.predicate) src waiting seen reached with
  | case1 waiting seen reached hnext =>
    intro queue hstart hqueue
    have hnil : fresh seen waiting = [] := by
      rw [← fresh_dropWhile, hnext]
      rfl
    rw [← serve_dropWhile, dropWhile_of_fresh_nil (hqueue.fresh_eq.trans hnil), serve]
    rfl
  | case2 waiting seen reached k rest hnext err herr =>
    intro queue hstart hqueue
    obtain ⟨rest', hnext', -⟩ := hqueue.next hnext
    have hk : k ∉ seen := Keys.new_of_dropWhile hnext
    have hne : k ≠ start := fun heq => hk (heq ▸ hstart)
    rw [← serve_dropWhile, hnext', serve, dif_neg hk, if_neg hne, herr]
    rfl
  | case3 waiting seen reached k rest hnext e he targets waiting' answer log hlog ih =>
    intro queue hstart hqueue
    obtain ⟨rest', hnext', hrest⟩ := hqueue.next hnext
    have hk : k ∉ seen := Keys.new_of_dropWhile hnext
    have hne : k ≠ start := fun heq => hk (heq ▸ hstart)
    have hkreached : k ∈ reached :=
      hqueue.found k (mem_queue_of_dropWhile hnext' List.mem_cons_self)
    have ih := ih _ (Keys.mem_insert_iff.mpr (.inr hstart))
      (hqueue.visit hnext' hnext hrest targets)
    rw [← serve_dropWhile, hnext', serve, dif_neg hk, if_neg hne, he]
    simp only [Except.mapError, hvisit k e _ reached hkreached, hne, if_false]
    rw [ih, hlog]

/-! ## Segments -/

theorem addAll_empty (ks : List Key) : Keys.addAll ∅ ks = Keys.ofList ks :=
  Std.ExtTreeSet.ext_mem fun k => by simp [Keys.mem_addAll, Keys.mem_ofList]

/-- The first round visits the start. -/
theorem serve_start : serve d seg start first src [start] ∅ ∅ =
    serve d seg start first src (visit d seg start first ((∅ : Keys).insert start) ∅).2
      ((∅ : Keys).insert start) (visit d seg start first ((∅ : Keys).insert start) ∅).1 := by
  rw [serve, dif_neg Std.ExtTreeSet.not_mem_empty, if_pos rfl]
  simp only [if_pos, List.nil_append]

/-- The rounds after the first one are an exploration from the start. -/
theorem serve_eq_spread {more : Keys → Keys} (hvisit : AddsHops d seg more) :
    serve d seg start first src
        ((d.hops seg.predicate first).filter fun t => !((∅ : Keys).insert start).contains t)
        ((∅ : Keys).insert start) (more (Keys.ofList (d.hops seg.predicate first))) =
      ((spread (d.hops seg.predicate) start first src).1.map fun r =>
          { r with reached := more r.reached },
        (spread (d.hops seg.predicate) start first src).2) := by
  refine serve_eq_explore hvisit _ _ _ _ (Keys.mem_insert_iff.mpr (.inl rfl)) ⟨?_, ?_, ?_⟩
  · exact fresh_filter fun k hk => not_contains_eq_false.mp hk
  · exact fun t ht => .inr (Keys.mem_ofList.mp ht)
  · exact fun t ht => Keys.mem_ofList.mpr (List.mem_filter.mp ht).1

/-- Following a segment with one queue is following it. -/
theorem followQueue_eq (d : Direction) (start : Key) (seg : Segment) :
    followQueue d start seg = follow d start seg := by
  obtain ⟨p, q⟩ := seg
  refine congrArg (entity start >>= ·) (funext fun first => funext fun src => ?_)
  rw [serve_start]
  cases q with
  | single =>
    rw [visit, addAll_empty, serve]
    rfl
  | zeroOne =>
    rw [visit, serve]
    rfl
  | onePlus =>
    simp only [visit, addAll_empty]
    refine (serve_eq_spread (addsHops_onePlus p)).trans ?_
    show _ = spread (d.hops p) start first src
    rcases spread (d.hops p) start first src with ⟨f | r, log⟩
    · rfl
    · rfl
  | zeroPlus =>
    have hfirst : Keys.addAll ((∅ : Keys).insert start) (d.hops p first) =
        (Keys.ofList (d.hops p first)).insert start :=
      Std.ExtTreeSet.ext_mem fun k => by
        simp only [Keys.mem_addAll, Keys.mem_insert_iff, Keys.mem_ofList]
        simp
    simp only [visit, hfirst]
    refine (serve_eq_spread (addsHops_zeroPlus p start)).trans ?_
    show _ = andThen (spread (d.hops p) start first)
      (fun r => pure { r with reached := r.reached.insert start }) src
    rw [andThen]
    rcases spread (d.hops p) start first src with ⟨f | r, log⟩
    · rfl
    · exact Prod.ext rfl (List.append_nil log).symm

end Reading

end TripleStore
