import TripleStore.Proofs.Query.Answer
import TripleStore.Proofs.Walk.Queue
import TripleStore.Proofs.Walk.Shortened

/-!
# What following a segment finds, in any store

The store may hold anything that can be decoded: cycles, edges of any kind, and
edges to keys without a record.  Following a segment finds the entities that edges
of its predicate lead to, and it needs a record for all that it visits.

So it fails in two ways.  The start may have no record, or a longer walk may lead
to a key that has none, however far from the start.  Otherwise it finds all and
nothing else.  It visits no entity twice, so it visits no more than there are
records.
-/

open Relation

namespace TripleStore

/-! ## Edges of a source -/

namespace Source

/-- An entity has an edge to another one, over a predicate of the term of `p`. -/
def Edged (src : Source) (d : Direction) (p a b : Key) : Prop :=
  ∃ e, src a = .ok e ∧ ∃ x ∈ d.edges e, x.predicate.sameName p = true ∧ x.value = b

/-- An entity has a statement about another one, over a predicate of the term of `p`. -/
def Stated (src : Source) (d : Direction) (p a b : Key) : Prop :=
  ∃ e, src a = .ok e ∧
    ∃ x ∈ d.edges e, x.quantifier = .single ∧ x.predicate.sameName p = true ∧ x.value = b

end Source

/-- A walk over the segment may be longer than one hop. -/
def Quantifier.repeats : Quantifier → Bool
  | single | zeroOne => false
  | onePlus | zeroPlus => true

/-- What a segment leads to from a start. -/
def Segment.LeadsTo (seg : Segment) (src : Source) (d : Direction) (start k : Key) : Prop :=
  match seg.quantifier with
  | .single => src.Stated d seg.predicate start k
  | .zeroOne => k = start ∨ src.Stated d seg.predicate start k
  | .onePlus => TransGen (src.Edged d seg.predicate) start k
  | .zeroPlus => k = start ∨ TransGen (src.Edged d seg.predicate) start k

/-- What is visited when a segment is followed from a start. -/
def Segment.Visits (seg : Segment) (src : Source) (d : Direction) (start k : Key) : Prop :=
  match seg.quantifier with
  | .single | .zeroOne => k = start
  | .onePlus | .zeroPlus => k = start ∨ TransGen (src.Edged d seg.predicate) start k

namespace Reading

variable {src : Source} {d : Direction} {p a b start : Key} {hops : Entity → List Key}

theorem step_hops_iff : Step (d.hops p) src a b ↔ src.Edged d p a b := by
  refine exists_congr fun e => and_congr_right fun _ => ?_
  simp only [Direction.hops, Entity.shortcuts, Entity.statements, List.mem_append, List.mem_map,
    List.mem_filter, Bool.and_eq_true, decide_eq_true_eq]
  constructor
  · rintro (⟨x, ⟨hx, -, hp⟩, rfl⟩ | ⟨x, ⟨hx, -, hp⟩, rfl⟩)
    · exact ⟨x, hx, hp, rfl⟩
    · exact ⟨x, hx, hp, rfl⟩
  · rintro ⟨x, hx, hp, rfl⟩
    by_cases hq : x.quantifier = .single
    · exact .inr ⟨x, ⟨hx, hq, hp⟩, rfl⟩
    · exact .inl ⟨x, ⟨hx, hq, hp⟩, rfl⟩

theorem step_hops_eq : Step (d.hops p) src = src.Edged d p :=
  funext fun _ => funext fun _ => propext step_hops_iff

theorem mem_statements_iff {e : Entity} (he : src a = .ok e) :
    b ∈ d.statements p e ↔ src.Stated d p a b := by
  rw [← step_iff_of_read he]
  refine exists_congr fun e => and_congr_right fun _ => ?_
  simp only [Direction.statements, Entity.statements, List.mem_map, List.mem_filter,
    Bool.and_eq_true, decide_eq_true_eq, and_assoc]

/-! ## Failures -/

/-- An exploration that fails met a key that cannot be read. -/
theorem explore_error {queue : List Key} {seen reached : Keys} {f : Fault}
    (h : Explored hops src start queue seen reached)
    (hf : (explore hops src queue seen reached).1 = .error f) :
    ∃ k e, f = .brokenWalk k e ∧ src k = .error e ∧ ReflTransGen (Step hops src) start k := by
  fun_induction explore hops src queue seen reached with
  | case1 queue seen reached hq => cases hf
  | case2 queue seen reached k rest hq err herr =>
    obtain rfl := Except.error.inj hf
    exact ⟨k, err, rfl, herr, h.sound k (.inr (mem_queue_of_dropWhile hq List.mem_cons_self))⟩
  | case3 queue seen reached k rest hq e he targets waiting answer log hlog ih =>
    rw [hlog] at ih
    exact ih (h.visit hq he) hf

theorem spread_error {first : Entity} {f : Fault} (hfirst : src start = .ok first)
    (hf : (spread hops start first).answer src = .error f) :
    ∃ k e, f = .brokenWalk k e ∧ src k = .error e ∧ TransGen (Step hops src) start k := by
  obtain ⟨k, e, rfl, he, hk⟩ := explore_error (explored_start hfirst) hf
  refine ⟨k, e, rfl, he, ?_⟩
  rcases reflTransGen_iff_eq_or_transGen.mp hk with rfl | hk
  · cases hfirst.symm.trans he
  · exact hk

/-! ## Visits -/

/-- An exploration visits what it has not visited, once. -/
theorem explore_log (hops : Entity → List Key) (src : Source) (queue : List Key)
    (seen reached : Keys) :
    ((explore hops src queue seen reached).2.map Prod.fst).Nodup ∧
      ∀ p ∈ (explore hops src queue seen reached).2, p.1 ∉ seen ∧ src p.1 = .ok p.2 := by
  fun_induction explore hops src queue seen reached with
  | case1 queue seen reached hq => exact ⟨List.nodup_nil, by simp⟩
  | case2 queue seen reached k rest hq err herr => exact ⟨List.nodup_nil, by simp⟩
  | case3 queue seen reached k rest hq e he targets waiting answer log hlog ih =>
    rw [hlog] at ih
    obtain ⟨hnd, hmem⟩ := ih
    constructor
    · refine List.nodup_cons.mpr ⟨fun hk => ?_, hnd⟩
      obtain ⟨p, hp, rfl⟩ := List.mem_map.mp hk
      exact (hmem p hp).1 (Keys.mem_insert_iff.mpr (.inl rfl))
    · intro p hp
      rcases List.mem_cons.mp hp with rfl | hp
      · exact ⟨Keys.new_of_dropWhile hq, he⟩
      · exact ⟨fun hseen => (hmem p hp).1 (Keys.mem_insert_iff.mpr (.inr hseen)), (hmem p hp).2⟩

/-- What following a segment from a start that was read goes on to read. -/
def logAfter (d : Direction) (start : Key) (first : Entity) (seg : Segment) (src : Source) :
    ReadLog :=
  if seg.quantifier.repeats then (spread (d.hops seg.predicate) start first).log src else []

theorem log_follow_of_read {first : Entity} (seg : Segment) (hfirst : src start = .ok first) :
    (follow d start seg).log src = (start, first) :: logAfter d start first seg src := by
  obtain ⟨p, q⟩ := seg
  have hentity : (entity start).log src = [(start, first)] := by
    rw [log, entity, hfirst]
  rw [follow, log_bind, hentity, answer_entity, hfirst, List.singleton_append]
  congr 1
  cases q with
  | single => rfl
  | zeroOne => rfl
  | onePlus => rfl
  | zeroPlus =>
    show ((spread (d.hops p) start first >>= fun r =>
      pure { r with reached := r.reached.insert start }) : Reading Reach).log src = _
    rw [log_bind]
    cases (spread (d.hops p) start first).answer src with
    | error f => exact List.append_nil _
    | ok r => exact List.append_nil _

theorem log_follow_of_error {f : Fault} (seg : Segment) (hfirst : src start = .error f) :
    (follow d start seg).log src = [] := by
  have hentity : (entity start).log src = [] := by
    rw [log, entity, hfirst]
  rw [follow, log_bind, hentity, answer_entity, hfirst]
  rfl

/-- Following a segment reads no entity twice. -/
theorem log_follow_spec (d : Direction) (start : Key) (seg : Segment) (src : Source) :
    (((follow d start seg).log src).map Prod.fst).Nodup ∧
      ∀ p ∈ (follow d start seg).log src, src p.1 = .ok p.2 := by
  cases hfirst : src start with
  | error f =>
    rw [log_follow_of_error seg hfirst]
    exact ⟨List.nodup_nil, by simp⟩
  | ok first =>
    rw [log_follow_of_read seg hfirst, logAfter]
    split
    · obtain ⟨hnd, hmem⟩ := explore_log (d.hops seg.predicate) src (d.hops seg.predicate first)
        ((∅ : Keys).insert start) (Keys.ofList (d.hops seg.predicate first))
      constructor
      · refine List.nodup_cons.mpr ⟨fun hk => ?_, hnd⟩
        obtain ⟨p, hp, hstart⟩ := List.mem_map.mp hk
        exact (hmem p hp).1 (Keys.mem_insert_iff.mpr (.inl hstart.symm))
      · intro p hp
        rcases List.mem_cons.mp hp with rfl | hp
        · exact hfirst
        · exact (hmem p hp).2
    · exact ⟨List.nodup_singleton start, by simpa using hfirst⟩

/-! ## Exactness -/

/-- An exploration from a start that was read finds all that edges lead to, unless one of these
keys cannot be read. -/
theorem spread_of_read {first : Entity} (hfirst : src start = .ok first) :
    (∃ r, (spread (d.hops p) start first).answer src = .ok r ∧
      (∀ k, TransGen (src.Edged d p) start k → ∃ e, src k = .ok e) ∧
      (∀ k, k ∈ r.reached ↔ TransGen (src.Edged d p) start k) ∧
      ∀ k, k ∈ r.seen ↔ k = start ∨ TransGen (src.Edged d p) start k) ∨
    ∃ k e, (spread (d.hops p) start first).answer src = .error (.brokenWalk k e) ∧
      TransGen (src.Edged d p) start k ∧ src k = .error e := by
  rw [← step_hops_eq]
  cases h : (spread (d.hops p) start first).answer src with
  | ok r =>
    obtain ⟨hread, hseen, hreached⟩ := (spread_eq_ok_iff hfirst).mp h
    refine .inl ⟨r, rfl, fun k hk => hread k hk.to_reflTransGen, hreached, fun k => ?_⟩
    rw [hseen, reflTransGen_iff_eq_or_transGen]
  | error f =>
    obtain ⟨k, e, rfl, he, hk⟩ := spread_error hfirst h
    exact .inr ⟨k, e, rfl, hk, he⟩

/-- Following a segment from a start that was read gives an answer that is exact, or a fault
about a key on the way that cannot be read. -/
theorem follow_of_read {first : Entity} (seg : Segment) (hfirst : src start = .ok first) :
    (∃ r, (follow d start seg).answer src = .ok r ∧
      (seg.quantifier.repeats = true →
        ∀ k, TransGen (src.Edged d seg.predicate) start k → ∃ e, src k = .ok e) ∧
      (∀ k, k ∈ r.reached ↔ seg.LeadsTo src d start k) ∧
      ∀ k, k ∈ r.seen ↔ seg.Visits src d start k) ∨
    ∃ k e, (follow d start seg).answer src = .error (.brokenWalk k e) ∧
      seg.quantifier.repeats = true ∧ TransGen (src.Edged d seg.predicate) start k ∧
      src k = .error e := by
  obtain ⟨p, q⟩ := seg
  have hentity : (entity start).answer src = .ok first := by rw [answer_entity, hfirst]
  have hstatements : ∀ k, k ∈ d.statements p first ↔ src.Stated d p start k :=
    fun k => mem_statements_iff hfirst
  have hhere : ∀ k, k ∈ (∅ : Keys).insert start ↔ k = start :=
    fun k => mem_singleton_iff.trans eq_comm
  rw [follow, answer_bind, hentity]
  cases q with
  | single =>
    refine .inl ⟨_, rfl, fun h => absurd h Bool.false_ne_true, fun k => ?_, hhere⟩
    rw [Keys.mem_ofList, hstatements]
    rfl
  | zeroOne =>
    refine .inl ⟨_, rfl, fun h => absurd h Bool.false_ne_true, fun k => ?_, hhere⟩
    rw [Keys.mem_addAll, hhere, hstatements]
    rfl
  | onePlus =>
    rcases spread_of_read (d := d) (p := p) hfirst with
      ⟨r, hr, hread, hreached, hseen⟩ | ⟨k, e, hr, hk, he⟩
    · exact .inl ⟨r, hr, fun _ => hread, hreached, hseen⟩
    · exact .inr ⟨k, e, hr, rfl, hk, he⟩
  | zeroPlus =>
    have hbind : (Except.ok first >>= fun _ : Entity =>
        ((spread (d.hops p) start first >>= fun r =>
          pure { r with reached := r.reached.insert start }) : Reading Reach).answer src) =
        ((spread (d.hops p) start first).answer src).map fun r =>
          { r with reached := r.reached.insert start } := by
      show ((spread (d.hops p) start first >>= fun r =>
        pure { r with reached := r.reached.insert start }) : Reading Reach).answer src = _
      rw [answer_bind]
      cases (spread (d.hops p) start first).answer src <;> rfl
    rcases spread_of_read (d := d) (p := p) hfirst with
      ⟨r, hr, hread, hreached, hseen⟩ | ⟨k, e, hr, hk, he⟩
    · refine .inl ⟨{ r with reached := r.reached.insert start }, ?_, fun _ => hread,
        fun k => ?_, hseen⟩
      · exact hbind.trans (by rw [hr]; rfl)
      · rw [Keys.mem_insert_iff, hreached, eq_comm]
        rfl
    · exact .inr ⟨k, e, hbind.trans (by rw [hr]; rfl), rfl, hk, he⟩

end Reading

/-! ## Following a segment in a store -/

/-- Every record of a store can be decoded. -/
def Store.Decodable (s : Store) : Prop :=
  ∀ (k : Key) (r : StoredRecord), s.records[k]? = some r → ∃ e, r.entity = .ok e

namespace Store

variable {s : Store} {k : Key}

theorem decodable_of_all (h : s.records.toList.all (fun p => p.2.entity.isOk) = true) :
    s.Decodable := by
  intro k r hr
  have hok := List.all_eq_true.mp h (k, r) (Std.ExtTreeMap.mem_toList_iff_getElem?_eq_some.mpr hr)
  cases he : r.entity with
  | error f =>
    rw [he] at hok
    cases hok
  | ok e => exact ⟨e, rfl⟩

theorem Decodable.exists_entity_iff (h : s.Decodable) :
    (∃ e, s.entity k = .ok e) ↔ k ∈ s.records := by
  rw [Std.ExtTreeMap.mem_iff_isSome_getElem?, Store.entity, Store.record]
  cases hr : s.records[k]? with
  | none =>
    refine iff_of_false ?_ Bool.false_ne_true
    rintro ⟨e, he⟩
    cases he
  | some r =>
    obtain ⟨e, he⟩ := h k r hr
    exact iff_of_true ⟨e, he⟩ rfl

theorem Decodable.entity_eq_error_iff (h : s.Decodable) {f : Fault} :
    s.entity k = .error f ↔ f = .notFound k ∧ k ∉ s.records := by
  rw [Std.ExtTreeMap.mem_iff_isSome_getElem?, Store.entity, Store.record]
  cases hr : s.records[k]? with
  | none =>
    constructor
    · intro hf
      exact ⟨(Except.error.inj hf).symm, Bool.false_ne_true⟩
    · rintro ⟨rfl, -⟩
      rfl
  | some r =>
    obtain ⟨e, he⟩ := h k r hr
    refine iff_of_false (fun hf => ?_) fun hf => hf.2 rfl
    cases he.symm.trans hf

end Store

namespace Cursor

open Reading

variable {t : Tables} {c : Cursor} {d : Direction} {start : Key} {seg : Segment}

/-- Following a segment ends with all that it leads to and nothing else, or with the fault that
tells what is missing.  On the way no record is read twice. -/
theorem followQueue_exact (hc : c.Faithful t) (hdec : t.store.Decodable) (d : Direction)
    (start : Key) (seg : Segment) :
    ((c.run t (followQueue d start seg)).1 = .error (.notFound start) ↔
      start ∉ t.store.records) ∧
    ((∃ k, (c.run t (followQueue d start seg)).1 = .error (.brokenWalk k (.notFound k))) ↔
      start ∈ t.store.records ∧ seg.quantifier.repeats = true ∧
        ∃ k, TransGen (Source.Edged t.store.entity d seg.predicate) start k ∧
          k ∉ t.store.records) ∧
    ((∃ r, (c.run t (followQueue d start seg)).1 = .ok r) ↔
      start ∈ t.store.records ∧ (seg.quantifier.repeats = true →
        ∀ k, TransGen (Source.Edged t.store.entity d seg.predicate) start k →
          k ∈ t.store.records)) ∧
    (∀ r, (c.run t (followQueue d start seg)).1 = .ok r →
      (∀ k, k ∈ r.reached ↔ seg.LeadsTo t.store.entity d start k) ∧
        ∀ k, k ∈ r.seen ↔ seg.Visits t.store.entity d start k) ∧
    (((followQueue d start seg).log t.store.entity).map Prod.fst).Nodup ∧
      ((followQueue d start seg).log t.store.entity).length ≤ t.store.size := by
  have hrun : (c.run t (followQueue d start seg)).1 =
      (follow d start seg).answer t.store.entity := by
    rw [Cursor.run, hc.source, followQueue_eq]
    rfl
  rw [hrun, followQueue_eq]
  obtain ⟨hnd, hlog⟩ := log_follow_spec d start seg t.store.entity
  have hbound : ((follow d start seg).log t.store.entity).length ≤ t.store.size := by
    have hstored : ((follow d start seg).log t.store.entity).map Prod.fst ⊆
        t.store.records.keys := by
      intro k hk
      obtain ⟨p, hp, rfl⟩ := List.mem_map.mp hk
      exact Std.ExtTreeMap.mem_keys.mpr (hdec.exists_entity_iff.mp ⟨p.2, hlog p hp⟩)
    have hlength := hnd.length_le_of_subset hstored
    rwa [List.length_map, Std.ExtTreeMap.length_keys] at hlength
  by_cases hstart : start ∈ t.store.records
  · obtain ⟨first, hfirst⟩ := hdec.exists_entity_iff.mpr hstart
    rcases follow_of_read (d := d) seg hfirst with
      ⟨r, hr, hread, hreached, hseen⟩ | ⟨k, e, hr, hrep, hk, he⟩
    · rw [hr]
      refine ⟨iff_of_false (by simp) (not_not_intro hstart), iff_of_false (by simp) ?_,
        iff_of_true ⟨r, rfl⟩ ⟨hstart, fun hrep k hk => ?_⟩, ?_, hnd, hbound⟩
      · rintro ⟨-, hrep, k, hk, hmissing⟩
        exact hmissing (hdec.exists_entity_iff.mp (hread hrep k hk))
      · exact hdec.exists_entity_iff.mp (hread hrep k hk)
      · rintro r' hr'
        obtain rfl := Except.ok.inj hr'
        exact ⟨hreached, hseen⟩
    · obtain ⟨rfl, hmissing⟩ := hdec.entity_eq_error_iff.mp he
      rw [hr]
      exact ⟨iff_of_false (by simp) (not_not_intro hstart),
        iff_of_true ⟨k, rfl⟩ ⟨hstart, hrep, k, hk, hmissing⟩,
        iff_of_false (by simp) fun h => hmissing (h.2 hrep k hk), by simp, hnd, hbound⟩
  · have hfirst := hdec.entity_eq_error_iff.mpr ⟨rfl, hstart⟩
    rw [follow_absent hfirst]
    exact ⟨iff_of_true rfl hstart, iff_of_false (by simp) fun h => hstart h.1,
      iff_of_false (by simp) fun h => hstart h.1, by simp, hnd, hbound⟩

/-- An entity with a statement about the next one. -/
def whole : Entity := ⟨⟨1, 1, 1⟩, [⟨⟨1, 9, 1⟩, ⟨1, 2, 1⟩, .single⟩], [], []⟩

/-- An entity that leads back, and by a shortcut to a key without a record. -/
def torn : Entity :=
  ⟨⟨1, 2, 1⟩, [⟨⟨1, 9, 1⟩, ⟨1, 1, 1⟩, .single⟩, ⟨⟨1, 9, 1⟩, ⟨1, 3, 1⟩, .onePlus⟩], [], []⟩

/-- The records of the two entities. -/
def tornTables : Tables := ⟨Store.empty.putEntities [whole, torn], .empty⟩

theorem followQueue_exact_torn :
    (∃ k, ((Cursor.new "g" 1 ∅).run tornTables
        (followQueue .forward ⟨1, 1, 1⟩ ⟨⟨1, 9, 0⟩, .onePlus⟩)).1 =
          .error (.brokenWalk k (.notFound k))) ∧
      ∃ r, ((Cursor.new "g" 1 ∅).run tornTables
        (followQueue .forward ⟨1, 1, 1⟩ ⟨⟨1, 9, 0⟩, .single⟩)).1 = .ok r := by
  have hdec : tornTables.store.Decodable := Store.decodable_of_all (by decide +kernel)
  have hlonger := followQueue_exact (c := .new "g" 1 ∅) faithful_new hdec .forward ⟨1, 1, 1⟩
    ⟨⟨1, 9, 0⟩, .onePlus⟩
  have honce := followQueue_exact (c := .new "g" 1 ∅) faithful_new hdec .forward ⟨1, 1, 1⟩
    ⟨⟨1, 9, 0⟩, .single⟩
  have hfirst : Source.Edged tornTables.store.entity .forward ⟨1, 9, 0⟩ ⟨1, 1, 1⟩ ⟨1, 2, 1⟩ :=
    ⟨whole, eq_ok_of_toOption (by decide +kernel), ⟨⟨1, 9, 1⟩, ⟨1, 2, 1⟩, .single⟩, by decide⟩
  have hlast : Source.Edged tornTables.store.entity .forward ⟨1, 9, 0⟩ ⟨1, 2, 1⟩ ⟨1, 3, 1⟩ :=
    ⟨torn, eq_ok_of_toOption (by decide +kernel), ⟨⟨1, 9, 1⟩, ⟨1, 3, 1⟩, .onePlus⟩, by decide⟩
  exact ⟨hlonger.2.1.mpr ⟨by decide +kernel, rfl, ⟨1, 3, 1⟩, .tail (.single hfirst) hlast,
    by decide +kernel⟩, honce.2.2.1.mpr ⟨by decide +kernel, fun h => absurd h Bool.false_ne_true⟩⟩

end Cursor

end TripleStore
