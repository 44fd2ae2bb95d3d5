import TripleStore.Proofs.Relation.Reached
import TripleStore.Relation.BufferedChange

/-!
# Changes in row buffers are changes

A step does to a relation in buffers what it does to the relation.  So relations
that steps make are reached by operations, and the outcome of a step does not
depend on what is in the pool.
-/

namespace TripleStore

namespace BufferedRelation

variable {b o : BufferedRelation} {r s : Relation}

theorem Holds.isEmpty_eq (h : b.Holds r) : b.isEmpty = r.isEmpty := by
  rw [isEmpty, Relation.isEmpty, h.rows, Array.isEmpty, Array.isEmpty, Array.size_map]

theorem Holds.binds_eq (h : b.Holds r) : b.binds = r.binds := by
  funext var
  rw [binds, h.index]
  rfl

theorem combine_spec (h : b.Holds r) (ho : o.Holds s) (he : r.Exact) :
    (b.combine o).1 = (r.combine s).1 ∧ (b.combine o).2.Holds (r.combine s).2 := by
  rw [combine, Relation.combine, h.isEmpty_eq, h.binds_eq, ho.columns]
  split
  · exact replaceWith_spec h ho he
  · exact join_spec h ho he _

theorem bindTuples_spec (h : b.Holds r) (he : r.Exact) (vars : List String)
    (tuples : List (List Key)) :
    (b.bindTuples vars tuples).1 = (r.bindTuples vars tuples).1 ∧
      (b.bindTuples vars tuples).2.Holds (r.bindTuples vars tuples).2 := by
  obtain ⟨houtcome, hfound⟩ :=
    insertAll_spec (holds_new vars) (Relation.exact_new vars) vars tuples
  rw [bindTuples, Relation.bindTuples, Relation.ofTuples]
  rcases hr : (Relation.new vars).insertAll vars tuples with ⟨outcome, found⟩
  rcases hb : (new vars).insertAll vars tuples with ⟨outcome', found'⟩
  rw [hr, hb] at houtcome hfound
  obtain rfl : outcome' = outcome := houtcome
  cases outcome' with
  | ok _ => exact combine_spec h hfound he
  | error e => exact ⟨rfl, h⟩

theorem Holds.check (h : b.Holds r) (holds : Bool) : (b.check holds).Holds (r.check holds) := by
  rw [BufferedRelation.check, Relation.check, h.isEmpty_eq]
  split
  · split
    · exact h.addUnit
    · exact h
  · exact h.clear

/-- A change to the buffers has the outcome of the change to the relation and leaves what
it leaves. -/
theorem apply_spec (h : b.Holds r) (he : r.Exact) (change : Relation.Change) :
    (b.apply change).1 = (r.apply change).1 ∧ (b.apply change).2.Holds (r.apply change).2 := by
  cases change with
  | check holds => exact ⟨rfl, h.check holds⟩
  | keys var keys =>
    simp only [apply, Relation.apply, bindKeys, Relation.bindKeys, h.isEmpty_eq, h.binds_eq]
    split
    · exact insertAll_spec h he _ _
    · exact bindTuples_spec h he _ _
  | tuples vars tuples => exact bindTuples_spec h he vars tuples

/-! ## Reached relations -/

theorem Reached.combine (h : b.Reached) (ho : o.Reached) : (b.combine o).2.Reached := by
  rw [BufferedRelation.combine]
  split
  · exact .replaceWith h ho
  · exact .join h ho _

theorem Reached.bindTuples (h : b.Reached) (vars : List String) (tuples : List (List Key)) :
    (b.bindTuples vars tuples).2.Reached := by
  have hfound : ((BufferedRelation.new vars).insertAll vars tuples).2.Reached :=
    .insertAll (.new vars) vars tuples
  rw [BufferedRelation.bindTuples]
  rcases hins : (BufferedRelation.new vars).insertAll vars tuples with ⟨_ | _, found⟩
  · exact h
  · rw [hins] at hfound
    exact h.combine hfound

/-- A change leaves a relation that operations make. -/
theorem Reached.apply (h : b.Reached) (change : Relation.Change) : (b.apply change).2.Reached := by
  cases change with
  | check holds =>
    simp only [BufferedRelation.apply, BufferedRelation.check]
    split
    · split
      · exact .addUnit h
      · exact h
    · exact .clear h
  | keys var keys =>
    simp only [BufferedRelation.apply, bindKeys]
    split
    · exact .insertAll h _ _
    · exact h.bindTuples _ _
  | tuples vars tuples => exact h.bindTuples vars tuples

/-- The relation in buffers that operations made is changed as it is changed elsewhere. -/
theorem Reached.apply_view (h : b.Reached) (change : Relation.Change) :
    (b.apply change).1 = (b.view.apply change).1 ∧
      (b.apply change).2.view = (b.view.apply change).2 := by
  obtain ⟨r, hr, he⟩ := h.exists_holds
  obtain ⟨houtcome, hholds⟩ := apply_spec hr he change
  rw [hr.view_eq]
  exact ⟨houtcome, hholds.view_eq⟩

end BufferedRelation

end TripleStore
