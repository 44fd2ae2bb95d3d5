import TripleStore.Proofs.Query.Run
import TripleStore.Proofs.Relation.BufferedChange

/-!
# Steps that fail

A step that fails leaves no half of its work behind.  It reads all that it needs
before it touches the bindings, so a fault of reading leaves them as they were.
After that there is one thing that can go wrong, which is that there are more rows
than there may be.  Tuples that do not fit a table of their own change nothing.  If
they fit and are then merged with the rows, and the result does not fit, no row is
left.

`Merges` says which changes are made by a merge.  Those that are not insert keys
where there are no rows.
-/

namespace TripleStore

namespace Relation

variable {r r' found : Relation} {vars : List String} {e : Fault}

/-! ## Where a change fails -/

theorem insertAll_eq_error {tuples : List (List Key)}
    (h : r.insertAll vars tuples = (.error e, r')) : e = .rowLimit r.limit := by
  induction tuples generalizing r with
  | nil => cases h
  | cons keys rest ih =>
    rw [insertAll] at h
    cases hins : r.insert (vars.zip keys) with
    | ok next =>
      rw [hins] at h
      have hlimit : next.limit = r.limit := by
        rw [insert] at hins
        split at hins
        · exact Except.ok.inj hins ▸ rfl
        · split at hins
          · cases hins
          · exact Except.ok.inj hins ▸ rfl
      rw [← hlimit]
      exact ih h
    | error e' =>
      rw [hins] at h
      obtain rfl := Except.error.inj (Prod.mk.inj h).1
      rw [insert] at hins
      split at hins
      · cases hins
      · split at hins
        · exact (Except.error.inj hins).symm
        · cases hins

/-- A relation that lost its rows because they were too many. -/
structure Spilled (r : Relation) (e : Fault) (r' : Relation) : Prop where
  /-- The fault names the limit. -/
  fault : e = .rowLimit r.limit
  /-- There are no rows. -/
  rows : r'.rows = #[]
  /-- Nothing is in the index. -/
  index : r'.index = ∅

theorem spilled_of_join {on : List String} (h : r.join found on = (.error e, r')) :
    r.Spilled e r' := by
  rw [join] at h
  simp only at h
  split at h
  · obtain ⟨he, rfl⟩ := Prod.mk.inj h
    exact ⟨(Except.error.inj he).symm, rfl, rfl⟩
  · cases h

theorem spilled_of_combine (h : r.combine found = (.error e, r')) : r.Spilled e r' := by
  rw [combine] at h
  split at h
  · obtain ⟨hfault, hrows, hindex⟩ := spilled_of_join h
    exact ⟨hfault, hrows, hindex⟩
  · exact spilled_of_join h

theorem kind_of_bindTuples {tuples : List (List Key)}
    (h : r.bindTuples vars tuples = (.error e, r')) : e.kind = .rowLimit := by
  rw [bindTuples] at h
  split at h
  · rw [(spilled_of_combine h).fault]
    rfl
  · next hfull =>
    obtain rfl := Except.error.inj (Prod.mk.inj h).1
    rw [insertAll_eq_error hfull]
    rfl

/-- A change fails over the number of rows alone. -/
theorem kind_of_apply {change : Change} (h : r.apply change = (.error e, r')) :
    e.kind = .rowLimit := by
  cases change with
  | check holds => cases h
  | keys var keys =>
    simp only [apply, bindKeys] at h
    split at h
    · rw [insertAll_eq_error h]
      rfl
    · exact kind_of_bindTuples h
  | tuples vars tuples => exact kind_of_bindTuples h

/-! ## Merges -/

/-- A change is made by a merge of a table of what was found with the rows. -/
inductive Merges (r : Relation) : Change → Relation → Prop
  | keys {var : String} {keys : Keys} {found : Relation}
      (hrows : (r.isEmpty && !r.binds var) = false)
      (hfound : ofTuples [var] (keys.toList.map fun k => [k]) = (.ok (), found)) :
      Merges r (.keys var keys) found
  | tuples {vars : List String} {tuples : List (List Key)} {found : Relation}
      (hfound : ofTuples vars tuples = (.ok (), found)) : Merges r (.tuples vars tuples) found

theorem Merges.apply_eq {change : Change} (h : r.Merges change found) :
    r.apply change = r.combine found := by
  cases h with
  | keys hrows hfound =>
    simp only [apply, bindKeys, hrows, Bool.false_eq_true, if_false, bindTuples, hfound]
  | tuples hfound => simp only [apply, bindTuples, hfound]

end Relation

/-! ## Steps -/

namespace Step

variable {t : Tables} {c c' : Cursor} {s : Step} {e : Fault}

/-- The relation after a step is that before it, or what the change found leaves of it. -/
theorem run_cases {outcome : Except Fault Unit} (h : s.run t c = (outcome, c')) :
    (∃ e, (c.run t (s.operator.found s.term c.relation)).1 = .error e ∧ outcome = .error e ∧
        c'.relation = c.relation) ∨
      ∃ change, (c.run t (s.operator.found s.term c.relation)).1 = .ok change ∧
        c.relation.apply change = (outcome, c'.relation) := by
  rw [run_eq] at h
  cases hfound : (s.operator.found s.term c.relation).answer (c.source t) with
  | error e =>
    rw [hfound] at h
    obtain ⟨rfl, rfl⟩ := Prod.mk.inj h
    exact .inl ⟨e, hfound, rfl, rfl⟩
  | ok change =>
    rw [hfound] at h
    obtain ⟨rfl, rfl⟩ := Prod.mk.inj h
    exact .inr ⟨change, hfound, rfl⟩

/-- A step that fails for another reason than the number of rows leaves the bindings as they
were.  If it fails as its change is made, the buffers that have the bindings are left as the
bindings are, and after a merge there is nothing in them. -/
theorem run_fails (h : s.run t c = (.error e, c')) :
    (e.kind ≠ .rowLimit → c'.relation = c.relation) ∧
      ∀ change, (c.run t (s.operator.found s.term c.relation)).1 = .ok change →
        (∀ b : BufferedRelation, b.Reached → b.view = c.relation →
          (b.apply change).1 = .error e ∧ (b.apply change).2.view = c'.relation) ∧
        ∀ found, c.relation.Merges change found → c.relation.Spilled e c'.relation := by
  rcases run_cases h with ⟨_, hread, -, hsame⟩ | ⟨change, hread, happly⟩
  · refine ⟨fun _ => hsame, fun change hchange => ?_⟩
    rw [hread] at hchange
    cases hchange
  · refine ⟨fun hkind => absurd (Relation.kind_of_apply happly) hkind, fun change' hchange => ?_⟩
    rw [hread] at hchange
    obtain rfl := Except.ok.inj hchange
    refine ⟨fun b hb hview => ?_, fun found hmerge => ?_⟩
    · obtain ⟨houtcome, hleft⟩ := hb.apply_view change
      rw [hview, happly] at houtcome hleft
      exact ⟨houtcome, hleft⟩
    · rw [hmerge.apply_eq] at happly
      exact Relation.spilled_of_combine happly

/-- An entity that two statements are about. -/
def hub : Entity :=
  ⟨⟨1, 2, 1⟩, [], [⟨⟨1, 9, 1⟩, ⟨1, 1, 1⟩, .single⟩, ⟨⟨1, 9, 1⟩, ⟨1, 3, 1⟩, .single⟩], []⟩

/-- Its record, and another key with bytes that are no record. -/
def hubTables : Tables := ⟨(Store.empty.putEntity hub).put ⟨1, 4, 1⟩ [7], .empty⟩

/-- The statements about an entity. -/
def about (k : Key) : Step := ⟨.statementsInto, ⟨.free "?s", .free "?p", .bound k, default⟩⟩

/-- A cursor with one row, which is all it may have. -/
def crowded : Cursor :=
  { Cursor.new "g" 1 ∅ with
    relation := ((Relation.withLimit ["?x"] 1).insertAll ["?x"] [[⟨1, 1, 1⟩]]).2 }

theorem run_fails_crowded :
    ((about ⟨1, 4, 1⟩).run hubTables crowded).1 = .error (.badRecord .endOfInput) ∧
      ((about ⟨1, 4, 1⟩).run hubTables crowded).2.relation = crowded.relation ∧
      ((about ⟨1, 2, 1⟩).run hubTables crowded).1 = .error (.rowLimit 1) ∧
      crowded.relation.Spilled (.rowLimit 1)
        ((about ⟨1, 2, 1⟩).run hubTables crowded).2.relation := by
  have hbad : ((about ⟨1, 4, 1⟩).run hubTables crowded).1 = .error (.badRecord .endOfInput) := by
    decide +kernel
  have hfull : ((about ⟨1, 2, 1⟩).run hubTables crowded).1 = .error (.rowLimit 1) := by
    decide +kernel
  have hpairs : (Reading.statementsInto ⟨1, 2, 1⟩).answer (crowded.source hubTables) =
      .ok [(⟨1, 1, 1⟩, ⟨1, 9, 1⟩), (⟨1, 3, 1⟩, ⟨1, 9, 1⟩)] := eq_ok_of_toOption (by decide +kernel)
  have hread := Operator.answer_tuplesOf "?s" "?p" hpairs
  have hfits : (Relation.ofTuples ["?s", "?p"]
      (Operator.tuplesOf [(⟨1, 1, 1⟩, ⟨1, 9, 1⟩), (⟨1, 3, 1⟩, ⟨1, 9, 1⟩)])).1 = .ok () := by
    decide +kernel
  exact ⟨hbad, (run_fails (Prod.ext hbad rfl)).1 (by decide), hfull,
    ((run_fails (Prod.ext hfull rfl)).2 _ hread).2 _ (.tuples (Prod.ext hfits rfl))⟩

end Step

end TripleStore
