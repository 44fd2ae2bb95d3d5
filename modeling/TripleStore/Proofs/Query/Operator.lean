import TripleStore.Plan.Operator
import TripleStore.Proofs.Query.Term
import TripleStore.Proofs.Relation.Change
import TripleStore.Proofs.Walk.Paths

/-!
# What operators find

An operator fits a term if the positions it takes for variables are variables,
and those it starts from are bound by the rows.  An operator that fits finds the
assignments under which the term holds, among those that agree with a row.

A path between two variables neither of which is bound is walked from its
starts.  This misses nodes that a path relates to themselves without a hop, so
`Term.Found` is what is found of such a term.  If the path has a segment that
takes a hop nothing is missed.
-/

namespace TripleStore

open Reading

/-! ## Operators that fit -/

/-- An operator fits a term, if rows bind some variables. -/
inductive Operator.Fits (bound : List String) : Operator → Term → Prop
  | check (s o : Key) (segs : List Segment) (p : Pattern) :
      Fits bound .check ⟨.bound s, .path segs, .bound o, p⟩
  | subjects (s : String) (o : Key) (segs : List Segment) (p : Pattern) :
      Fits bound .subjects ⟨.free s, .path segs, .bound o, p⟩
  | objects (s : Key) (o : String) (segs : List Segment) (p : Pattern) :
      Fits bound .objects ⟨.bound s, .path segs, .free o, p⟩
  | predicates (s o : Key) (q : String) (p : Pattern) :
      Fits bound .predicates ⟨.bound s, .free q, .bound o, p⟩
  | ends (s o : String) (segs : List Segment) (p : Pattern) :
      Fits bound .ends ⟨.free s, .path segs, .free o, p⟩
  | subjectsOfBound (s o : String) (segs : List Segment) (p : Pattern) (h : o ∈ bound) :
      Fits bound .subjectsOfBound ⟨.free s, .path segs, .free o, p⟩
  | objectsOfBound (s o : String) (segs : List Segment) (p : Pattern) (h : s ∈ bound) :
      Fits bound .objectsOfBound ⟨.free s, .path segs, .free o, p⟩
  | statementsInto (s q : String) (o : Key) (p : Pattern) :
      Fits bound .statementsInto ⟨.free s, .free q, .bound o, p⟩
  | statementsFrom (s : Key) (q o : String) (p : Pattern) :
      Fits bound .statementsFrom ⟨.bound s, .free q, .free o, p⟩
  | tripleFromSubject (s q o : String) (p : Pattern) (h : s ∈ bound) :
      Fits bound .tripleFromSubject ⟨.free s, .free q, .free o, p⟩
  | tripleFromObject (s q o : String) (p : Pattern) (h : o ∈ bound) :
      Fits bound .tripleFromObject ⟨.free s, .free q, .free o, p⟩
  | tripleFromPredicate (s q o : String) (p : Pattern) (h : q ∈ bound) :
      Fits bound .tripleFromPredicate ⟨.free s, .free q, .free o, p⟩

namespace Term

/-! ## What is found of a term -/

/-- A path between two variables neither of which is bound. -/
def Unanchored (bound : List String) (t : Term) : Prop :=
  ∃ s o segs, t.subject = .free s ∧ t.link = .path segs ∧ t.object = .free o ∧
    s ∉ bound ∧ o ∉ bound

/-- A term holds, and a path that is not anchored is walked from one of its starts. -/
def Found (ss : List Statement) (bound : List String) (f : String → Key) (t : Term) : Prop :=
  t.Holds ss f ∧
    (t.Unanchored bound → PathStart ss t.link.segments (t.subject.value f))

/-- A path between two variables takes a hop. -/
def TakesHop (t : Term) : Prop :=
  ∀ s o segs, t.subject = .free s → t.link = .path segs → t.object = .free o →
    ∃ seg ∈ segs, seg.quantifier.allowsNoHop = false

variable {ss : List Statement} {bound : List String} {f g : String → Key} {t : Term}

/-- Nothing is missed of a path that takes a hop. -/
theorem TakesHop.found_iff (h : t.TakesHop) : t.Found ss bound f ↔ t.Holds ss f := by
  refine ⟨And.left, fun hf => ⟨hf, ?_⟩⟩
  rintro ⟨s, o, segs, hs, hl, ho, -, -⟩
  rw [Holds] at hf
  rw [hl] at hf ⊢
  exact pathStart_of_links hf (.inr (h s o segs hs hl ho))

/-- A term is anchored by a known end, a predicate that is a variable, or a variable that is
bound, and then all that holds is found. -/
theorem found_iff_holds (h : t.subject.var? = none ∨ t.link.var? ≠ none ∨ t.object.var? = none ∨
    ∃ v ∈ bound, t.subject.var? = some v ∨ t.object.var? = some v) :
    t.Found ss bound f ↔ t.Holds ss f := by
  refine and_iff_left fun hun => ?_
  obtain ⟨s, o, segs, hs, hl, ho, hsb, hob⟩ := hun
  rw [hs, hl, ho] at h
  rcases h with h | h | h | ⟨v, hv, h | h⟩
  · cases h
  · exact absurd rfl h
  · cases h
  · exact absurd (Option.some.inj h ▸ hv) hsb
  · exact absurd (Option.some.inj h ▸ hv) hob

/-- Whether a term is found depends on its variables alone. -/
theorem Found.congr (h : ∀ v ∈ t.roleVars, f v = g v) :
    t.Found ss bound f ↔ t.Found ss bound g := by
  rw [Found]
  rw [Holds.congr h]
  refine and_congr_right fun _ => forall_congr' fun hun => ?_
  obtain ⟨s, o, segs, hs, -⟩ := hun
  have hv : f s = g s := h s (mem_roleVars.mpr (.inl (by rw [hs]; rfl)))
  rw [hs, Slot.value, Slot.value, hv]

end Term

namespace Operator

variable {here : UInt32 × UInt64} {ss : List Statement} {src : Source}

/-- The answer of a reading of which something is made. -/
theorem answer_bind_pure {α β : Type} {m : Reading α} {a : α} (f : α → β)
    (h : m.answer src = .ok a) : (m >>= fun a => pure (f a)).answer src = .ok (f a) := by
  rw [answer_bind, h]
  rfl

/-- The answer of a reading of which tuples of two variables are made. -/
theorem answer_tuplesOf {m : Reading (List (Key × Key))} {pairs : List (Key × Key)}
    (v w : String) (h : m.answer src = .ok pairs) :
    (m >>= fun pairs => pure (Relation.Change.tuples [v, w] (tuplesOf pairs))).answer src =
      .ok (.tuples [v, w] (tuplesOf pairs)) :=
  answer_bind_pure (fun pairs => Relation.Change.tuples [v, w] (tuplesOf pairs)) h

/-! ## Walks from several entities -/

/-- The pairs of some objects are settled by the subjects of each. -/
theorem pairsInto_of_subjects {segs : List Segment} {links : Key → Key → Prop} {ks : List Key}
    (h : ∀ k ∈ ks, ∃ subs, (Reading.subjects k segs).answer src = .ok subs ∧
      ∀ s, s ∈ subs ↔ links s k) :
    ∃ pairs, (pairsInto segs ks).answer src = .ok pairs ∧
      ∀ s o, (s, o) ∈ pairs ↔ o ∈ ks ∧ links s o := by
  induction ks with
  | nil => exact ⟨[], rfl, by simp⟩
  | cons k ks ih =>
    obtain ⟨subs, hsubs, hspec⟩ := h k List.mem_cons_self
    obtain ⟨rest, hrest, hmem⟩ := ih fun k hk => h k (List.mem_cons_of_mem _ hk)
    refine ⟨subs.toList.map (fun s => (s, k)) ++ rest, ?_, fun s o => ?_⟩
    · rw [pairsInto, answer_bind, hsubs]
      show ((pairsInto segs ks >>= fun rest => pure (subs.toList.map (fun s => (s, k)) ++ rest)) :
        Reading (List (Key × Key))).answer src = _
      rw [answer_bind, hrest]
      rfl
    · rw [List.mem_append, hmem, List.mem_map, List.mem_cons]
      constructor
      · rintro (⟨s', hs', heq⟩ | ⟨hk, hl⟩)
        · obtain ⟨rfl, rfl⟩ := Prod.mk.inj heq
          exact ⟨.inl rfl, (hspec s').mp (Std.ExtTreeSet.mem_toList.mp hs')⟩
        · exact ⟨.inr hk, hl⟩
      · rintro ⟨rfl | hk, hl⟩
        · exact .inl ⟨s, Std.ExtTreeSet.mem_toList.mpr ((hspec s).mpr hl), rfl⟩
        · exact .inr ⟨hk, hl⟩

theorem pairsInto_spec (hs : src.Shows here ss) {segs : List Segment}
    (hp : ∀ seg ∈ segs, seg.predicate.place = here) {ks : List Key}
    (hks : ∀ k ∈ ks, k.place = here) :
    ∃ pairs, (pairsInto segs ks).answer src = .ok pairs ∧
      ∀ s o, (s, o) ∈ pairs ↔ o ∈ ks ∧ PathLinks ss segs s o :=
  pairsInto_of_subjects fun k hk => subjects_spec hs.toPresents hp (hs.settles (hks k hk))

theorem around_spec {statements : Key → Reading (List (List Key))} {p : Key → List Key → Prop}
    {ks : List Key} (h : ∀ k ∈ ks, ∃ ts, (statements k).answer src = .ok ts ∧ ∀ t, t ∈ ts ↔ p k t) :
    ∃ ts, (around statements ks).answer src = .ok ts ∧ ∀ t, t ∈ ts ↔ ∃ k ∈ ks, p k t := by
  induction ks with
  | nil => exact ⟨[], rfl, by simp⟩
  | cons k ks ih =>
    obtain ⟨first, hfirst, hp⟩ := h k List.mem_cons_self
    obtain ⟨rest, hrest, hps⟩ := ih fun k hk => h k (List.mem_cons_of_mem _ hk)
    refine ⟨first ++ rest, ?_, fun t => ?_⟩
    · rw [around, answer_bind, hfirst]
      show ((around statements ks >>= fun rest => pure (first ++ rest)) :
        Reading (List (List Key))).answer src = _
      rw [answer_bind, hrest]
      rfl
    · rw [List.mem_append, hp, hps]
      simp

/-- The tuples that are made of statements around some entities. -/
theorem around_map_spec {read : Key → Reading (List (Key × Key))} {hop : Key → Key → Key → Prop}
    (tuple : Key → Key × Key → List Key) {ks : List Key}
    (h : ∀ k ∈ ks, ∃ pairs, (read k).answer src = .ok pairs ∧
      ∀ x y, (x, y) ∈ pairs ↔ hop k x y) :
    ∃ ts, (around (fun k => do return (← read k).map (tuple k)) ks).answer src = .ok ts ∧
      ∀ t, t ∈ ts ↔ ∃ k ∈ ks, ∃ x y, hop k x y ∧ tuple k (x, y) = t := by
  refine around_spec fun k hk => ?_
  obtain ⟨pairs, hpairs, hspec⟩ := h k hk
  refine ⟨_, answer_bind_pure (List.map (tuple k)) hpairs, fun t => ?_⟩
  rw [List.mem_map, Prod.exists]
  simp only [hspec]

variable {hop : Key → Key → Key → Prop} {ks : List Key}

theorem triplesFrom_spec (h : ∀ k ∈ ks, ∃ pairs, (Reading.statementsFrom k).answer src = .ok pairs ∧
      ∀ p o, (p, o) ∈ pairs ↔ hop p k o) :
    ∃ ts, (around (fun s => do
        return (← Reading.statementsFrom s).map fun p => [s, p.1, p.2]) ks).answer src = .ok ts ∧
      (∀ t ∈ ts, t.length = 3) ∧ ∀ s p o, [s, p, o] ∈ ts ↔ s ∈ ks ∧ hop p s o := by
  obtain ⟨ts, hts, hspec⟩ := around_map_spec (fun s p => [s, p.1, p.2]) h
  refine ⟨ts, hts, fun t ht => ?_, fun s p o => (hspec _).trans (by simp)⟩
  obtain ⟨_, _, _, _, _, rfl⟩ := (hspec t).mp ht
  rfl

theorem triplesInto_spec (h : ∀ k ∈ ks, ∃ pairs, (Reading.statementsInto k).answer src = .ok pairs ∧
      ∀ s p, (s, p) ∈ pairs ↔ hop p s k) :
    ∃ ts, (around (fun o => do
        return (← Reading.statementsInto o).map fun p => [p.1, p.2, o]) ks).answer src = .ok ts ∧
      (∀ t ∈ ts, t.length = 3) ∧ ∀ s p o, [s, p, o] ∈ ts ↔ o ∈ ks ∧ hop p s o := by
  obtain ⟨ts, hts, hspec⟩ := around_map_spec (fun o p => [p.1, p.2, o]) h
  refine ⟨ts, hts, fun t ht => ?_, fun s p o => (hspec _).trans (by simp)⟩
  obtain ⟨_, _, _, _, _, rfl⟩ := (hspec t).mp ht
  rfl

theorem triplesOver_spec (h : ∀ k ∈ ks, ∃ pairs, (Reading.predicatePairs k).answer src = .ok pairs ∧
      ∀ s o, (s, o) ∈ pairs ↔ hop k s o) :
    ∃ ts, (around (fun q => do
        return (← Reading.predicatePairs q).map fun p => [p.1, q, p.2]) ks).answer src = .ok ts ∧
      (∀ t ∈ ts, t.length = 3) ∧ ∀ s p o, [s, p, o] ∈ ts ↔ p ∈ ks ∧ hop p s o := by
  obtain ⟨ts, hts, hspec⟩ := around_map_spec (fun q p => [p.1, q, p.2]) h
  refine ⟨ts, hts, fun t ht => ?_, fun s p o => (hspec _).trans (by simp)⟩
  obtain ⟨_, _, _, _, _, rfl⟩ := (hspec t).mp ht
  rfl

/-! ## Keys that rows bind -/

/-- What is known of the rows before an operator is run. -/
structure Ready (here : UInt32 × UInt64) (bound : List String) (r : Relation) : Prop where
  /-- The index is right. -/
  indexed : r.Indexed
  /-- All rows bind the same variables. -/
  even : r.Even bound
  /-- They bind them to keys of the place. -/
  place : ∀ f, r.Has f → ∀ v, f v ≠ Key.empty → (f v).place = here

variable {bound : List String} {r : Relation}

theorem Ready.place_of_mem (h : Ready here bound r) {v : String} :
    ∀ k ∈ (r.valuesFor v).toList, k.place = here := by
  intro k hk
  obtain ⟨hne, row, hrow, rfl⟩ := h.indexed.mem_valuesFor.mp (Std.ExtTreeSet.mem_toList.mp hk)
  exact h.place _ ⟨row, hrow, rfl⟩ v hne

/-- Near a row, a variable that rows bind has one of their values. -/
theorem Ready.near (h : Ready here bound r) {a b : String → Key} {v : String} (ha : r.Allows a)
    (hab : Agree a b) (hv : v ∈ bound) (hne : b v ≠ Key.empty) : b v ∈ r.valuesFor v :=
  h.even.near h.indexed ha hab hv hne

theorem Ready.binds_iff (h : Ready here bound r) {v : String} : r.binds v = true ↔ v ∈ bound :=
  h.even.binds_iff h.indexed

/-! ## What operators find -/

/-- What a term allows next to an assignment of the rows. -/
def Finds (ss : List Statement) (bound : List String) (t : Term) (r : Relation)
    (change : Relation.Change) : Prop :=
  change.Proper ∧ ∀ a b, r.Allows a → Agree a b →
    (change.Allows b ↔ Binds b t.roleVars ∧ t.Found ss bound b)

theorem mem_tuplesOf {pairs : List (Key × Key)} {x y : Key} :
    [x, y] ∈ tuplesOf pairs ↔ (x, y) ∈ pairs := by
  simp only [tuplesOf, List.mem_map, List.cons.injEq, and_true]
  constructor
  · rintro ⟨⟨x', y'⟩, hxy, rfl, rfl⟩
    exact hxy
  · intro hxy
    exact ⟨_, hxy, rfl, rfl⟩

/-- Tuples found for the variables of a term, if they are what the term allows near the rows. -/
theorem finds_tuples {t : Term} {tuples : List (List Key)} (hne : t.roleVars ≠ [])
    (hlen : ∀ keys ∈ tuples, keys.length = t.roleVars.length)
    (h : ∀ a b, r.Allows a → Agree a b → Binds b t.roleVars →
      (t.roleVars.map b ∈ tuples ↔ t.Found ss bound b)) :
    Finds ss bound t r (.tuples t.roleVars tuples) :=
  ⟨⟨hne, hlen⟩, fun a b ha hab => and_congr_right fun hb => h a b ha hab hb⟩

theorem length_of_mem_tuplesOf {pairs : List (Key × Key)} :
    ∀ keys ∈ tuplesOf pairs, keys.length = 2 := by
  intro keys hk
  obtain ⟨q, -, rfl⟩ := List.mem_map.mp hk
  rfl

/-- The same for the pairs that a path links. -/
theorem finds_pairs {s o : String} {segs : List Segment} {p : Pattern} {pairs : List (Key × Key)}
    (h : ∀ a b, r.Allows a → Agree a b → b s ≠ Key.empty → b o ≠ Key.empty →
      ((b s, b o) ∈ pairs ↔ Term.Found ss bound b ⟨.free s, .path segs, .free o, p⟩)) :
    Finds ss bound ⟨.free s, .path segs, .free o, p⟩ r (.tuples [s, o] (tuplesOf pairs)) := by
  refine finds_tuples (t := ⟨.free s, .path segs, .free o, p⟩) (List.cons_ne_nil _ _)
    length_of_mem_tuplesOf fun a b ha hab hb => ?_
  exact mem_tuplesOf.trans (h a b ha hab ((hb s).mpr List.mem_cons_self)
    ((hb o).mpr (List.mem_cons_of_mem _ List.mem_cons_self)))

/-- The same for the statements around each of the values of a variable. -/
theorem finds_triples {s q o v : String} {p : Pattern} {ts : List (List Key)}
    (hlen : ∀ t ∈ ts, t.length = 3) (hv : v ∈ [s, q, o])
    (hnear : ∀ a b, r.Allows a → Agree a b → b v ≠ Key.empty → b v ∈ r.valuesFor v)
    (h : ∀ b : String → Key, [b s, b q, b o] ∈ ts ↔
      b v ∈ (r.valuesFor v).toList ∧ Hop ss (b q) (b s) (b o)) :
    Finds ss bound ⟨.free s, .free q, .free o, p⟩ r (.tuples [s, q, o] ts) := by
  refine finds_tuples (t := ⟨.free s, .free q, .free o, p⟩) (List.cons_ne_nil _ _) hlen
    fun a b ha hab hb => (h b).trans ?_
  have hfound : Term.Found ss bound b ⟨.free s, .free q, .free o, p⟩ ↔ Hop ss (b q) (b s) (b o) :=
    Term.found_iff_holds (.inr (.inl (Option.some_ne_none q)))
  rw [hfound, Std.ExtTreeSet.mem_toList]
  exact and_iff_right (hnear a b ha hab ((hb v).mpr hv))

/-- Pairs are found for a path between two variables, whichever of them rows bind. -/
theorem linkedPairs_spec {s o : String} {segs : List Segment} {p : Pattern}
    (hs : src.Shows here ss) (hpath : ∀ seg ∈ segs, seg.predicate.place = here)
    (hr : Ready here bound r) :
    ∃ pairs, (linkedPairs segs r s o).answer src = .ok pairs ∧
      ∀ a b, r.Allows a → Agree a b → b s ≠ Key.empty → b o ≠ Key.empty →
        ((b s, b o) ∈ pairs ↔ Term.Found ss bound b ⟨.free s, .path segs, .free o, p⟩) := by
  have hsome : ∀ {b : String → Key} (v : String), v ∈ bound → v = s ∨ v = o →
      (Term.Found ss bound b ⟨.free s, .path segs, .free o, p⟩ ↔
        PathLinks ss segs (b s) (b o)) := by
    intro b v hv hso
    refine Term.found_iff_holds (.inr (.inr (.inr ⟨v, hv, ?_⟩)))
    exact hso.imp (fun h => congrArg some h.symm) fun h => congrArg some h.symm
  rw [linkedPairs]
  cases hbs : r.binds s with
  | false =>
    cases hbo : r.binds o with
    | false =>
      obtain ⟨pairs, hpairs, hspec⟩ := pathPairs_spec hs.toPresents hpath
        fun seg h => hs.settles (hpath seg h)
      refine ⟨pairs, hpairs, fun a b _ _ _ _ => ?_⟩
      rw [hspec, and_comm]
      refine and_congr_right fun _ => ⟨fun h _ => h, fun h => h ?_⟩
      exact ⟨s, o, segs, rfl, rfl, rfl, by rw [← hr.binds_iff, hbs]; simp,
        by rw [← hr.binds_iff, hbo]; simp⟩
    | true =>
      obtain ⟨pairs, hpairs, hspec⟩ := pairsInto_spec hs hpath hr.place_of_mem
      refine ⟨pairs, hpairs, fun a b ha hab _ hne => ?_⟩
      have hbound := hr.binds_iff.mp hbo
      rw [hspec, Std.ExtTreeSet.mem_toList, hsome o hbound (.inr rfl)]
      exact and_iff_right (hr.near ha hab hbound hne)
  | true =>
    obtain ⟨pairs, hpairs, hspec⟩ := pairsFrom_spec hs.toPresents hpath
      fun k hk => hs.settles (hr.place_of_mem k hk)
    have hbound := hr.binds_iff.mp hbs
    have hmem : ∀ a b, r.Allows a → Agree a b → b s ≠ Key.empty → ((b s, b o) ∈ pairs ↔
        Term.Found ss bound b ⟨.free s, .path segs, .free o, p⟩) := by
      intro a b ha hab hne
      rw [hspec, Std.ExtTreeSet.mem_toList, hsome s hbound (.inl rfl)]
      exact and_iff_right (hr.near ha hab hbound hne)
    cases hbo : r.binds o with
    | false => exact ⟨pairs, hpairs, fun a b ha hab hne _ => hmem a b ha hab hne⟩
    | true =>
      refine ⟨pairs.filter fun p => (r.valuesFor o).contains p.2, ?_, fun a b ha hab hne hne' => ?_⟩
      · exact answer_bind_pure (List.filter fun p => (r.valuesFor o).contains p.2) hpairs
      · rw [List.mem_filter, hmem a b ha hab hne, Std.ExtTreeSet.contains_iff_mem]
        exact and_iff_left (hr.near ha hab (hr.binds_iff.mp hbo) hne')

/-- An operator that fits a term finds what the term allows. -/
theorem found_spec {op : Operator} {t : Term} (hs : src.Shows here ss) (ht : t.Formed here)
    (hr : Ready here bound r) (hfit : op.Fits bound t) :
    ∃ change, (op.found t r).answer src = .ok change ∧ Finds ss bound t r change := by
  cases hfit with
  | check s o segs p =>
    have hpath := ht.path segs rfl
    obtain ⟨ks, hks, hspec⟩ := objects_spec hs.toPresents hpath (hs.settles (ht.subject s rfl))
    refine ⟨_, answer_bind_pure (fun os : Keys => Relation.Change.check (os.contains o)) hks,
      trivial, fun a b _ _ => ?_⟩
    show ks.contains o = true ∧ b = unbound ↔ Binds b [] ∧ _
    rw [binds_nil_iff, Std.ExtTreeSet.contains_iff_mem, hspec, and_comm,
      Term.found_iff_holds (.inl rfl)]
    rfl
  | subjects s o segs p =>
    have hpath := ht.path segs rfl
    obtain ⟨ks, hks, hspec⟩ := subjects_spec hs.toPresents hpath (hs.settles (ht.object o rfl))
    have hfound : ∀ b, Term.Found ss bound b ⟨.free s, .path segs, .bound o, p⟩ ↔
        PathLinks ss segs (b s) o := fun _ => Term.found_iff_holds (.inr (.inr (.inl rfl)))
    exact ⟨_, answer_bind_pure (Relation.Change.keys s) hks, trivial, fun a b _ _ =>
      and_congr_right fun _ => (hspec (b s)).trans (hfound b).symm⟩
  | objects s o segs p =>
    have hpath := ht.path segs rfl
    obtain ⟨ks, hks, hspec⟩ := objects_spec hs.toPresents hpath (hs.settles (ht.subject s rfl))
    have hfound : ∀ b, Term.Found ss bound b ⟨.bound s, .path segs, .free o, p⟩ ↔
        PathLinks ss segs s (b o) := fun _ => Term.found_iff_holds (.inl rfl)
    exact ⟨_, answer_bind_pure (Relation.Change.keys o) hks, trivial, fun a b _ _ =>
      and_congr_right fun _ => (hspec (b o)).trans (hfound b).symm⟩
  | predicates s o q p =>
    obtain ⟨ks, hks, hspec⟩ := predicatesBetween_spec (o := o) hs (ht.subject s rfl)
    have hfound : ∀ b, Term.Found ss bound b ⟨.bound s, .free q, .bound o, p⟩ ↔
        Hop ss (b q) s o := fun _ => Term.found_iff_holds (.inl rfl)
    exact ⟨_, answer_bind_pure (Relation.Change.keys q) hks, trivial, fun a b _ _ =>
      and_congr_right fun _ => (hspec (b q)).trans (hfound b).symm⟩
  | ends s o segs p =>
    have hpath := ht.path segs rfl
    obtain ⟨pairs, hpairs, hspec⟩ := linkedPairs_spec hs hpath hr
    exact ⟨_, answer_tuplesOf s o hpairs, finds_pairs hspec⟩
  | subjectsOfBound s o segs p ho =>
    have hpath := ht.path segs rfl
    obtain ⟨pairs, hpairs, hspec⟩ := pairsInto_spec hs hpath hr.place_of_mem
    refine ⟨_, answer_tuplesOf s o hpairs, finds_pairs fun a b ha hab _ hne => ?_⟩
    rw [hspec, Std.ExtTreeSet.mem_toList,
      Term.found_iff_holds (.inr (.inr (.inr ⟨o, ho, .inr rfl⟩)))]
    exact and_iff_right (hr.near ha hab ho hne)
  | objectsOfBound s o segs p hsb =>
    have hpath := ht.path segs rfl
    obtain ⟨pairs, hpairs, hspec⟩ := pairsFrom_spec hs.toPresents hpath
      fun k hk => hs.settles (hr.place_of_mem k hk)
    refine ⟨_, answer_tuplesOf s o hpairs, finds_pairs fun a b ha hab hne _ => ?_⟩
    rw [hspec, Std.ExtTreeSet.mem_toList,
      Term.found_iff_holds (.inr (.inr (.inr ⟨s, hsb, .inl rfl⟩)))]
    exact and_iff_right (hr.near ha hab hsb hne)
  | statementsInto s q o p =>
    obtain ⟨pairs, hpairs, hspec⟩ := statementsInto_spec hs (ht.object o rfl)
    have hfound : ∀ b, Term.Found ss bound b ⟨.free s, .free q, .bound o, p⟩ ↔
        Hop ss (b q) (b s) o := fun _ => Term.found_iff_holds (.inr (.inr (.inl rfl)))
    exact ⟨_, answer_tuplesOf s q hpairs,
      finds_tuples (t := ⟨.free s, .free q, .bound o, p⟩) (List.cons_ne_nil _ _)
        length_of_mem_tuplesOf fun a b _ _ _ =>
          (mem_tuplesOf.trans (hspec (b s) (b q))).trans (hfound b).symm⟩
  | statementsFrom s q o p =>
    obtain ⟨pairs, hpairs, hspec⟩ := statementsFrom_spec hs (ht.subject s rfl)
    have hfound : ∀ b, Term.Found ss bound b ⟨.bound s, .free q, .free o, p⟩ ↔
        Hop ss (b q) s (b o) := fun _ => Term.found_iff_holds (.inl rfl)
    exact ⟨_, answer_tuplesOf q o hpairs,
      finds_tuples (t := ⟨.bound s, .free q, .free o, p⟩) (List.cons_ne_nil _ _)
        length_of_mem_tuplesOf fun a b _ _ _ =>
          (mem_tuplesOf.trans (hspec (b q) (b o))).trans (hfound b).symm⟩
  | tripleFromSubject s q o p hsb =>
    obtain ⟨ts, hts, hlen, hspec⟩ :=
      triplesFrom_spec fun k hk => statementsFrom_spec hs (hr.place_of_mem k hk)
    exact ⟨_, answer_bind_pure (Relation.Change.tuples [s, q, o]) hts,
      finds_triples (v := s) hlen (by simp) (fun a b ha hab => hr.near ha hab hsb)
        fun b => hspec _ _ _⟩
  | tripleFromObject s q o p ho =>
    obtain ⟨ts, hts, hlen, hspec⟩ :=
      triplesInto_spec fun k hk => statementsInto_spec hs (hr.place_of_mem k hk)
    exact ⟨_, answer_bind_pure (Relation.Change.tuples [s, q, o]) hts,
      finds_triples (v := o) hlen (by simp) (fun a b ha hab => hr.near ha hab ho)
        fun b => hspec _ _ _⟩
  | tripleFromPredicate s q o p hq =>
    obtain ⟨ts, hts, hlen, hspec⟩ := triplesOver_spec fun k hk =>
      predicatePairs_spec hs.toPresents (hs.settles (hr.place_of_mem k hk))
    exact ⟨_, answer_bind_pure (Relation.Change.tuples [s, q, o]) hts,
      finds_triples (v := q) hlen (by simp) (fun a b ha hab => hr.near ha hab hq)
        fun b => hspec _ _ _⟩

end Operator

end TripleStore
