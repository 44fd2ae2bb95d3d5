import TripleStore.Proofs.Query.Stop
import TripleStore.Proofs.Relation.Tuples
import TripleStore.Proofs.Stored

/-!
# The choice of an operator

A term whose positions are variables can be matched from the values that rows have
for any of its variables.  From the values of the subject one reads outgoing edges,
from those of the object incoming ones, and from those of the predicate endpoints.
Each way finds what is linked in the place of the values it starts from.  Near the
rows this is the same (`found_pivots`), so it does not matter from which values the
term is matched, and the rows that are left are the same.

A way may find too much elsewhere.  If there are more tuples than any relation has
rows the step is refused, and leaves the rows alone.  `Stored.operators_alike` says
that nothing else sets the ways apart, for keys of places that no two versions share.
-/

namespace TripleStore

open Reading

variable {here : UInt32 × UInt64} {ss : List Statement} {src : Source} {r : Relation}

/-- The ends of a term are linked in some place. -/
def Term.Linked (src : Source) (f : String → Key) (t : Term) : Prop :=
  match t.link with
  | .free q => src.Hops (f q) (t.subject.value f) (t.object.value f)
  | .path segs => src.Links segs (t.subject.value f) (t.object.value f)

namespace Operator

/-! ## Starting from values -/

/-- The variables from whose values an operator starts. -/
def pivots (op : Operator) (t : Term) (r : Relation) : List String :=
  match op with
  | ends => t.roleVars.filter r.binds
  | op => (op.startVar? t).toList

/-- An operator matches a term of variables from values that rows have for them. -/
inductive Pivots (r : Relation) : Operator → Term → Prop
  | ends (s o : String) (segs : List Segment) (p : Pattern)
      (h : r.binds s = true ∨ r.binds o = true) :
      Pivots r .ends ⟨.free s, .path segs, .free o, p⟩
  | subjectsOfBound (s o : String) (segs : List Segment) (p : Pattern) (h : r.binds o = true) :
      Pivots r .subjectsOfBound ⟨.free s, .path segs, .free o, p⟩
  | objectsOfBound (s o : String) (segs : List Segment) (p : Pattern) (h : r.binds s = true) :
      Pivots r .objectsOfBound ⟨.free s, .path segs, .free o, p⟩
  | tripleFromSubject (s q o : String) (p : Pattern) (h : r.binds s = true) :
      Pivots r .tripleFromSubject ⟨.free s, .free q, .free o, p⟩
  | tripleFromObject (s q o : String) (p : Pattern) (h : r.binds o = true) :
      Pivots r .tripleFromObject ⟨.free s, .free q, .free o, p⟩
  | tripleFromPredicate (s q o : String) (p : Pattern) (h : r.binds q = true) :
      Pivots r .tripleFromPredicate ⟨.free s, .free q, .free o, p⟩

variable {op op' : Operator} {t : Term}

/-- The values it starts from are those of variables of the term that rows bind. -/
theorem Pivots.binds_of_mem (h : op.Pivots r t) {v : String} (hv : v ∈ op.pivots t r) :
    v ∈ t.roleVars ∧ r.binds v = true := by
  cases h with
  | ends s o segs p _ => exact List.mem_filter.mp hv
  | subjectsOfBound s o segs p h | objectsOfBound s o segs p h =>
    obtain rfl := List.mem_singleton.mp hv
    exact ⟨by simp [Term.roleVars, Term.roles, Slot.var?, Link.var?], h⟩
  | tripleFromSubject s q o p h | tripleFromObject s q o p h | tripleFromPredicate s q o p h =>
    obtain rfl := List.mem_singleton.mp hv
    exact ⟨by simp [Term.roleVars, Term.roles, Slot.var?, Link.var?], h⟩

theorem Pivots.roleVars_ne_nil (h : op.Pivots r t) : t.roleVars ≠ [] := by
  cases h with
  | ends | subjectsOfBound | objectsOfBound => exact List.cons_ne_nil _ _
  | tripleFromSubject | tripleFromObject | tripleFromPredicate => exact List.cons_ne_nil _ _

/-- Tuples are found that stand for what is linked, if it has the values that were started from. -/
def FindsFrom (src : Source) (op : Operator) (t : Term) (r : Relation)
    (tuples : List (List Key)) : Prop :=
  (op.found t r).answer src = .ok (.tuples t.roleVars tuples) ∧
    (∀ keys ∈ tuples, keys.length = t.roleVars.length) ∧
    ∀ b : String → Key, t.roleVars.map b ∈ tuples ↔
      t.Linked src b ∧ ∀ v ∈ op.pivots t r, b v ∈ r.valuesFor v

/-- An operator that starts from one variable finds what is linked with one of its values. -/
theorem findsFrom_of_start {v : String} {tuples : List (List Key)} (hop : op ≠ .ends)
    (hv : op.startVar? t = some v)
    (hfound : (op.found t r).answer src = .ok (.tuples t.roleVars tuples))
    (hlen : ∀ keys ∈ tuples, keys.length = t.roleVars.length)
    (h : ∀ b : String → Key, t.roleVars.map b ∈ tuples ↔ b v ∈ r.valuesFor v ∧ t.Linked src b) :
    FindsFrom src op t r tuples := by
  have hpivots : op.pivots t r = [v] := by
    cases op with
    | ends => exact absurd rfl hop
    | _ => exact congrArg Option.toList hv
  refine ⟨hfound, hlen, fun b => ?_⟩
  rw [h, hpivots, List.forall_mem_singleton, and_comm]

section

variable (hplaces : ∀ v, ∀ k ∈ r.valuesFor v, src.Places k)
include hplaces

theorem pairsFrom_values (segs : List Segment) (s : String) :
    ∃ pairs, (pairsFrom segs (r.valuesFor s).toList).answer src = .ok pairs ∧
      ∀ x y, (x, y) ∈ pairs ↔ x ∈ r.valuesFor s ∧ src.Links segs x y := by
  obtain ⟨pairs, hpairs, hspec⟩ := pairsFrom_of_objects fun k hk =>
    objects_links (hplaces s k (Std.ExtTreeSet.mem_toList.mp hk)) segs
  exact ⟨pairs, hpairs, fun x y => by rw [hspec, Std.ExtTreeSet.mem_toList]⟩

theorem pairsInto_values (segs : List Segment) (o : String) :
    ∃ pairs, (pairsInto segs (r.valuesFor o).toList).answer src = .ok pairs ∧
      ∀ x y, (x, y) ∈ pairs ↔ y ∈ r.valuesFor o ∧ src.Links segs x y := by
  obtain ⟨pairs, hpairs, hspec⟩ := pairsInto_of_subjects fun k hk =>
    subjects_links (hplaces o k (Std.ExtTreeSet.mem_toList.mp hk)) segs
  exact ⟨pairs, hpairs, fun x y => by rw [hspec, Std.ExtTreeSet.mem_toList]⟩

/-- Between two variables, pairs are found from the values of those that rows bind. -/
theorem linkedPairs_values (segs : List Segment) {s o : String}
    (h : r.binds s = true ∨ r.binds o = true) :
    ∃ pairs, (linkedPairs segs r s o).answer src = .ok pairs ∧
      ∀ x y, (x, y) ∈ pairs ↔ src.Links segs x y ∧ (r.binds s = true → x ∈ r.valuesFor s) ∧
        (r.binds o = true → y ∈ r.valuesFor o) := by
  rw [linkedPairs]
  cases hs : r.binds s with
  | true =>
    obtain ⟨pairs, hpairs, hspec⟩ := pairsFrom_values hplaces segs s
    cases ho : r.binds o with
    | true =>
      refine ⟨_, answer_bind_pure (List.filter fun p => (r.valuesFor o).contains p.2) hpairs,
        fun x y => ?_⟩
      rw [List.mem_filter, hspec, Std.ExtTreeSet.contains_iff_mem]
      simp only [true_imp_iff]
      rw [and_comm (a := x ∈ r.valuesFor s), and_assoc]
    | false => exact ⟨pairs, hpairs, fun x y => by simp [hspec, and_comm]⟩
  | false =>
    obtain ho := h.resolve_left (by simp [hs])
    obtain ⟨pairs, hpairs, hspec⟩ := pairsInto_values hplaces segs o
    rw [ho]
    exact ⟨pairs, hpairs, fun x y => by simp [hspec, and_comm]⟩

/-- What is linked is found from the values that an operator starts from. -/
theorem found_pivots (h : op.Pivots r t) : ∃ tuples, FindsFrom src op t r tuples := by
  cases h with
  | ends s o segs p h =>
    obtain ⟨pairs, hpairs, hspec⟩ := linkedPairs_values hplaces segs h
    refine ⟨_, answer_tuplesOf s o hpairs, length_of_mem_tuplesOf, fun b => ?_⟩
    refine (mem_tuplesOf.trans (hspec _ _)).trans (and_congr_right fun _ => ?_)
    simp [pivots, Term.roleVars, Term.roles, Slot.var?, Link.var?]
  | subjectsOfBound s o segs p h =>
    obtain ⟨pairs, hpairs, hspec⟩ := pairsInto_values hplaces segs o
    exact ⟨_, findsFrom_of_start (by decide) rfl (answer_tuplesOf s o hpairs) length_of_mem_tuplesOf
      fun b => mem_tuplesOf.trans (hspec _ _)⟩
  | objectsOfBound s o segs p h =>
    obtain ⟨pairs, hpairs, hspec⟩ := pairsFrom_values hplaces segs s
    exact ⟨_, findsFrom_of_start (by decide) rfl (answer_tuplesOf s o hpairs) length_of_mem_tuplesOf
      fun b => mem_tuplesOf.trans (hspec _ _)⟩
  | tripleFromSubject s q o p h =>
    obtain ⟨ts, hts, hlen, hspec⟩ := triplesFrom_spec fun k hk =>
      statementsFrom_hops (hplaces s k (Std.ExtTreeSet.mem_toList.mp hk))
    exact ⟨_, findsFrom_of_start (by decide) rfl
      (answer_bind_pure (Relation.Change.tuples [s, q, o]) hts) hlen
      fun b => (hspec _ _ _).trans (and_congr_left' Std.ExtTreeSet.mem_toList)⟩
  | tripleFromObject s q o p h =>
    obtain ⟨ts, hts, hlen, hspec⟩ := triplesInto_spec fun k hk =>
      statementsInto_hops (hplaces o k (Std.ExtTreeSet.mem_toList.mp hk))
    exact ⟨_, findsFrom_of_start (by decide) rfl
      (answer_bind_pure (Relation.Change.tuples [s, q, o]) hts) hlen
      fun b => (hspec _ _ _).trans (and_congr_left' Std.ExtTreeSet.mem_toList)⟩
  | tripleFromPredicate s q o p h =>
    obtain ⟨ts, hts, hlen, hspec⟩ := triplesOver_spec fun k hk =>
      predicatePairs_hops (hplaces q k (Std.ExtTreeSet.mem_toList.mp hk))
    exact ⟨_, findsFrom_of_start (by decide) rfl
      (answer_bind_pure (Relation.Change.tuples [s, q, o]) hts) hlen
      fun b => (hspec _ _ _).trans (and_congr_left' Std.ExtTreeSet.mem_toList)⟩

end

/-! ## Near the rows -/

variable {vars : List String} {tuples tuples' : List (List Key)}

/-- Near a row, the variables it starts from have values of rows. -/
theorem Pivots.near (h : op.Pivots r t) (hi : r.Indexed) (heven : r.Even vars)
    {a b : String → Key} (ha : r.Allows a) (hab : Agree a b) (hb : Binds b t.roleVars) :
    ∀ v ∈ op.pivots t r, b v ∈ r.valuesFor v := by
  intro v hv
  obtain ⟨hrole, hbinds⟩ := h.binds_of_mem hv
  exact heven.near hi ha hab ((heven.binds_iff hi).mp hbinds) ((hb v).mpr hrole)

/-- Tuples found from different values say the same near the rows. -/
theorem FindsFrom.sameNear (hf : FindsFrom src op t r tuples) (hf' : FindsFrom src op' t r tuples')
    (h : op.Pivots r t) (h' : op'.Pivots r t) (hi : r.Indexed) (heven : r.Even vars) :
    r.SameNear t.roleVars tuples tuples' := by
  intro a b ha hab hb
  rw [hf.2.2, hf'.2.2]
  refine and_congr_right fun _ => iff_of_true ?_ ?_
  · exact h.near hi heven ha hab hb
  · exact h'.near hi heven ha hab hb

end Operator

/-! ## Steps -/

namespace Step

variable {tb : Tables} {c : Cursor} {s s' : Step}

/-- Whether a step succeeds, and the relation it leaves. -/
def leaves (tb : Tables) (c : Cursor) (s : Step) : Except Fault Unit × Relation :=
  ((s.run tb c).1, (s.run tb c).2.relation)

theorem leaves_of_found {change : Relation.Change}
    (h : (s.operator.found s.term c.relation).answer (c.source tb) = .ok change) :
    s.leaves tb c = c.relation.apply change := by
  rw [leaves, run_eq, h]

/-- A step finds more tuples than any relation has rows.  It fails and leaves the rows alone. -/
def Refused (tb : Tables) (c : Cursor) (s : Step) : Prop :=
  s.leaves tb c = (.error (.rowLimit Relation.maxRows), c.relation) ∧
    ∃ names tuples, (s.operator.found s.term c.relation).answer (c.source tb) =
      .ok (.tuples names tuples) ∧ Relation.maxRows < tuples.length

/-- Two steps leave the same rows, and the same relation if their variables are bound already,
unless one of them is refused. -/
def Alike (tb : Tables) (c : Cursor) (s s' : Step) : Prop :=
  s.Refused tb c ∨ s'.Refused tb c ∨ Relation.SameRows (s.leaves tb c) (s'.leaves tb c) ∧
    ((∀ v ∈ s.term.roleVars, c.relation.binds v = true) → s.leaves tb c = s'.leaves tb c)

variable {t : Term} {op op' : Operator} {vars : List String}

/-- A step that finds tuples is refused, or combines the rows with a relation that lists them. -/
theorem leaves_cases {tuples : List (List Key)} (hne : t.roleVars ≠ [])
    (hf : Operator.FindsFrom (c.source tb) op t c.relation tuples) :
    Refused tb c ⟨op, t⟩ ∨ ∃ found, Relation.Lists t.roleVars tuples found ∧
      leaves tb c ⟨op, t⟩ = c.relation.combine found := by
  have hleaves : leaves tb c ⟨op, t⟩ = c.relation.bindTuples t.roleVars tuples :=
    leaves_of_found (s := ⟨op, t⟩) hf.1
  rcases c.relation.bindTuples_cases hne hf.2.1 with ⟨herr, hlt⟩ | ⟨found, hl, hok⟩
  · exact .inl ⟨hleaves.trans herr, _, _, hf.1, hlt⟩
  · exact .inr ⟨found, hl, hleaves.trans hok⟩

/-- From whichever values a term is matched, the same rows are left. -/
theorem alike_of_pivots (hi : c.relation.Indexed) (heven : c.relation.Even vars)
    (hplaces : ∀ v, ∀ k ∈ c.relation.valuesFor v, (c.source tb).Places k)
    (h : op.Pivots c.relation t) (h' : op'.Pivots c.relation t) :
    Alike tb c ⟨op, t⟩ ⟨op', t⟩ := by
  obtain ⟨tuples, hf⟩ := Operator.found_pivots hplaces h
  obtain ⟨tuples', hf'⟩ := Operator.found_pivots hplaces h'
  rcases leaves_cases h.roleVars_ne_nil hf with hrefused | ⟨found, hl, hleaves⟩
  · exact .inl hrefused
  rcases leaves_cases h.roleVars_ne_nil hf' with hrefused | ⟨found', hl', hleaves'⟩
  · exact .inr (.inl hrefused)
  rw [Alike, hleaves, hleaves']
  exact .inr (.inr (Relation.combine_sameNear hi heven hl hl' (hf.sameNear hf' h h' hi heven)))

/-- Steps whose operators find the same do the same. -/
theorem run_congr (h : op.found t c.relation = op'.found t c.relation) :
    run tb c ⟨op, t⟩ = run tb c ⟨op', t⟩ := by
  rw [run, run, h]

/-- With one end bound, walking from whichever is bound is walking from that one. -/
theorem run_ends_eq (c : Cursor) (tb : Tables) (s o : String) (segs : List Segment) (p : Pattern) :
    (c.relation.binds s = true → c.relation.binds o = false →
      run tb c ⟨.ends, ⟨.free s, .path segs, .free o, p⟩⟩ =
        run tb c ⟨.objectsOfBound, ⟨.free s, .path segs, .free o, p⟩⟩) ∧
    (c.relation.binds s = false → c.relation.binds o = true →
      run tb c ⟨.ends, ⟨.free s, .path segs, .free o, p⟩⟩ =
        run tb c ⟨.subjectsOfBound, ⟨.free s, .path segs, .free o, p⟩⟩) := by
  have hfound : Operator.found ⟨.free s, .path segs, .free o, p⟩ c.relation .ends =
      (Operator.linkedPairs segs c.relation s o >>= fun pairs =>
        pure (Relation.Change.tuples [s, o] (Operator.tuplesOf pairs))) := rfl
  refine ⟨fun hs ho => run_congr ?_, fun hs ho => run_congr ?_⟩
  · rw [hfound, Operator.linkedPairs, hs, ho]
    rfl
  · rw [hfound, Operator.linkedPairs, hs, ho]
    rfl

end Step

/-! ## Cursors with rows -/

namespace Cursor

/-- A cursor with a row for each tuple. -/
def onTuples (graph : String) (version : UInt64) (vars : List String)
    (tuples : List (List Key)) : Cursor where
  graph := graph
  version := version
  namespaces := ∅
  relation := (Relation.ofTuples vars tuples).2
  cache := ∅

theorem lists_onTuples {graph : String} {version : UInt64} {vars : List String}
    {tuples : List (List Key)} (hne : vars ≠ [])
    (hlen : ∀ keys ∈ tuples, keys.length = vars.length) (hfew : tuples.length ≤ Relation.maxRows) :
    Relation.Lists vars tuples (onTuples graph version vars tuples).relation :=
  Relation.lists_ofTuples hne hlen hfew

end Cursor

namespace Tables

variable {taken : List (UInt32 × UInt64)} {t : Tables}

/-- With rows that all bind the same variables, a term of variables leaves the same rows from
whichever bound variable it is matched, and the same relation if all its variables are bound.
Only a step that finds more tuples than any relation has rows is refused.  The rows may bind keys
of any version whose place no other version shares, and of versions that are not stored. -/
theorem Stored.operators_alike (h : Stored taken t) {c : Cursor} (hfaithful : c.Faithful t)
    (hi : c.relation.Indexed) (hlevel : c.relation.Level)
    (honce : ∀ f, c.relation.Has f → ∀ v, f v ≠ Key.empty → taken.count (f v).place ≤ 1) :
    (∀ (term : Term) (op op' : Operator), op.Pivots c.relation term →
      op'.Pivots c.relation term → Step.Alike t c ⟨op, term⟩ ⟨op', term⟩) ∧
    ∀ (s o : String) (segs : List Segment) (p : Pattern),
      (c.relation.binds s = true → c.relation.binds o = false →
        Step.run t c ⟨.ends, ⟨.free s, .path segs, .free o, p⟩⟩ =
          Step.run t c ⟨.objectsOfBound, ⟨.free s, .path segs, .free o, p⟩⟩) ∧
      (c.relation.binds s = false → c.relation.binds o = true →
        Step.run t c ⟨.ends, ⟨.free s, .path segs, .free o, p⟩⟩ =
          Step.run t c ⟨.subjectsOfBound, ⟨.free s, .path segs, .free o, p⟩⟩) := by
  have hplaces : ∀ v, ∀ k ∈ c.relation.valuesFor v, (c.source t).Places k := by
    intro v k hk
    obtain ⟨hne, row, hrow, rfl⟩ := hi.mem_valuesFor.mp hk
    rw [hfaithful.source]
    exact h.places (honce _ ⟨row, hrow, rfl⟩ v hne)
  refine ⟨fun term op op' hop hop' => ?_, fun s o segs p => Step.run_ends_eq c t s o segs p⟩
  exact Step.alike_of_pivots hi (hlevel.even hi) hplaces hop hop'

/-- A cursor with three rows, of which a statement of the chain relates two. -/
def onThreePairs : Cursor :=
  .onTuples "g" 1 ["?x", "?y"]
    [[.ofUri "g" ⟨"", "a"⟩ 1, .ofUri "g" ⟨"", "b"⟩ 1],
      [.ofUri "g" ⟨"", "a"⟩ 1, .ofUri "g" ⟨"", "c"⟩ 1],
      [.ofUri "g" ⟨"", "b"⟩ 1, .ofUri "g" ⟨"", "c"⟩ 1]]

/-- What is linked, between two variables. -/
def linkedTerm : Term where
  subject := .free "?x"
  link := .path [⟨.ofUri "g" ⟨"", "p"⟩ 1, .single⟩]
  object := .free "?y"
  pattern := ⟨⟨"", "?x"⟩, [⟨⟨"", "p"⟩, .single⟩], ⟨"", "?y"⟩⟩

/-- With both ends bound, three operators leave the same two rows. -/
theorem operators_alike_chain :
    ∃ t', Tables.addVersion default "g" 1 chain = (.ok (), t') ∧
      ∃ left, left.size = 2 ∧ ∀ op ∈ [Operator.ends, .subjectsOfBound, .objectsOfBound],
        Step.leaves t' onThreePairs ⟨op, linkedTerm⟩ = (.ok (), left) := by
  have hadd : (Tables.addVersion default "g" 1 chain).1.toOption = some () := by decide +kernel
  have hstored : Stored [(Checksum.ofText "g", 1)] (Tables.addVersion default "g" 1 chain).2 :=
    Stored.nil.addVersion (by decide : FitsMemory chain) hadd
  have hlists : Relation.Lists ["?x", "?y"] _ onThreePairs.relation :=
    Cursor.lists_onTuples (List.cons_ne_nil _ _) (by decide) (by decide)
  obtain ⟨halike, -⟩ := Stored.operators_alike hstored (c := onThreePairs)
    (Cursor.faithful_of_cache rfl) hlists.exact.toIndexed hlists.level
    fun _ _ _ _ => List.count_le_length
  have hbinds : ∀ v ∈ ["?x", "?y"], onThreePairs.relation.binds v = true := by decide +kernel
  have hpivots : ∀ op ∈ [Operator.ends, .subjectsOfBound, .objectsOfBound],
      op.Pivots onThreePairs.relation linkedTerm := by
    have hx := hbinds "?x" (by decide)
    have hy := hbinds "?y" (by decide)
    simp only [List.forall_mem_cons, List.not_mem_nil, false_imp_iff, implies_true, and_true]
    exact ⟨.ends _ _ _ _ (.inl hx), .subjectsOfBound _ _ _ _ hy, .objectsOfBound _ _ _ _ hx⟩
  have hok : ∀ op ∈ [Operator.ends, .subjectsOfBound, .objectsOfBound],
      (Step.leaves (Tables.addVersion default "g" 1 chain).2 onThreePairs
        ⟨op, linkedTerm⟩).1.toOption = some () := by decide +kernel
  have hnot : ∀ op ∈ [Operator.ends, .subjectsOfBound, .objectsOfBound],
      ¬ Step.Refused (Tables.addVersion default "g" 1 chain).2 onThreePairs ⟨op, linkedTerm⟩ := by
    intro op hop hrefused
    have hop := hok op hop
    rw [hrefused.1] at hop
    cases hop
  have hlast : Operator.objectsOfBound ∈ [Operator.ends, .subjectsOfBound, .objectsOfBound] := by
    decide
  have hsize : (Step.leaves (Tables.addVersion default "g" 1 chain).2 onThreePairs
      ⟨.objectsOfBound, linkedTerm⟩).2.size = 2 := by decide +kernel
  refine ⟨_, Prod.ext (eq_ok_of_toOption hadd) rfl, _, hsize, fun op hop => ?_⟩
  have hleft := halike linkedTerm op .objectsOfBound (hpivots op hop) (hpivots _ hlast)
  have hleft := ((hleft.resolve_left (hnot op hop)).resolve_left (hnot _ hlast)).2 hbinds
  rw [hleft]
  exact Prod.ext (eq_ok_of_toOption (hok _ hlast)) rfl

end Tables

end TripleStore
