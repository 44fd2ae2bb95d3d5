import TripleStore.Proofs.Relation.Tuples

/-!
# Changes that change nothing

A change leaves a relation as it is if each row has in it all that the change asks
for.  Then a row agrees with one assignment of the change alone, the part of it that
the change binds, and merging that into the row writes the keys that are there
already.  As the rows settle the index, the whole relation stays.

What a change allows must fit a relation of its own.  It does if a change that
allows more has been applied before.
-/

namespace TripleStore

/-! ## Writing what is there -/

namespace Row

theorem setCell_getD {cells : List Key} {i : Nat} (h : cells.getD i Key.empty ≠ Key.empty) :
    setCell cells i (cells.getD i Key.empty) = cells := by
  induction cells generalizing i with
  | nil => exact absurd rfl h
  | cons cell cells ih =>
    cases i with
    | zero => rfl
    | succ i => exact congrArg (List.cons cell) (ih h)

@[simp] theorem set_value (row : Row) (i : Nat) : row.set i (row.value i) = row := by
  rw [set]
  split
  · rfl
  · next hne => exact Row.ext (setCell_getD (by simpa [Key.isEmpty, value] using hne))

end Row

namespace Relation

variable {r r' found : Relation} {vars names : List String} {tuples : List (List Key)}

theorem merge_eq_self {row o : Row} {pos : Nat} {positions : List Nat}
    (h : ∀ i (hi : i < positions.length), row.value positions[i] = o.value (pos + i)) :
    merge row o pos positions = row := by
  induction positions generalizing pos with
  | nil => rfl
  | cons position positions ih =>
    have hhead : row.value position = o.value pos := h 0 (Nat.zero_lt_succ _)
    rw [merge, ← hhead, Row.set_value]
    refine ih fun i hi => ?_
    rw [Nat.add_assoc, Nat.add_comm 1]
    exact h (i + 1) (Nat.succ_lt_succ hi)

/-- Merging keys that a row binds leaves the row as it is. -/
theorem merge_targets_eq_self {row o : Row} (hnd : found.columns.Nodup)
    (hcols : ∀ v ∈ found.columns, v ∈ r.columns)
    (h : ∀ v ∈ found.columns, r.valueIn row v = found.valueIn o v) :
    merge row o 0 (targets r.columns found.columns) = row := by
  refine merge_eq_self fun i hi => ?_
  have hi : i < found.columns.length := by simpa [targets] using hi
  have hmem := List.getElem_mem hi
  have hv := h _ hmem
  rw [valueIn_of_mem (hcols _ hmem), valueIn_of_mem hmem, hnd.idxOf_getElem i hi] at hv
  simpa [targets] using hv

/-! ## Joins with parts of the rows -/

section

variable (hl : Lists names tuples found)
  (hall : ∀ f, r.Has f → ∃ b, found.Has b ∧ ∀ v ∈ names, f v = b v)
include hl hall

/-- A row agrees with one row of the list, the part of it that is listed. -/
theorem exists_agreeing_eq {row : Row} (hrow : row ∈ r.rows) :
    ∃ o, r.agreeing found found.columns row = [o] ∧ ∀ v ∈ found.columns,
      r.valueIn row v ≠ Key.empty ∧ r.valueIn row v = found.valueIn o v := by
  obtain ⟨_, ⟨o, ho, rfl⟩, heq⟩ := hall _ ⟨row, hrow, rfl⟩
  have hbinds := ((hl.has _).mp ⟨o, ho, rfl⟩).1
  have hagree : ∀ v ∈ found.columns,
      r.valueIn row v ≠ Key.empty ∧ r.valueIn row v = found.valueIn o v := by
    intro v hv
    rw [heq v (hl.mem_vars hv)]
    exact ⟨(hbinds v).mpr (hl.mem_vars hv), rfl⟩
  refine ⟨o, List.perm_singleton.mp ((List.perm_ext_iff_of_nodup
    (hl.distinct.nodup_rows.filter _) (List.nodup_singleton o)).mpr fun o' => ?_), hagree⟩
  rw [List.mem_singleton]
  refine mem_agreeing.trans ⟨fun ho' => ?_, ?_⟩
  · exact hl.eq_of_agree ho'.1 ho fun v hv => ((ho'.2 v hv).2).symm.trans (hagree v hv).2
  · rintro rfl
    exact ⟨ho, hagree⟩

theorem nestedJoin_eq_self (hcols : ∀ v ∈ found.columns, v ∈ r.columns) :
    r.nestedJoin found found.columns = r.rows.toList := by
  have hone : ∀ row ∈ r.rows.toList, ((r.agreeing found found.columns row).map fun o =>
      merge row o 0 (targets r.columns found.columns)) = [row] := by
    intro row hrow
    obtain ⟨o, ho, heq⟩ := exists_agreeing_eq hl hall (Array.mem_toList_iff.mp hrow)
    rw [ho, List.map_singleton, merge_targets_eq_self hl.exact.columns_nodup hcols
      fun v hv => (heq v hv).2]
  rw [nestedJoin, addColumns_of_subset hcols]
  exact (List.flatMap_congr hone).trans (List.flatMap_singleton' _)

theorem combine_eq_self (h : r.Tidy) (he : r.isEmpty = false) : r.combine found = (.ok (), r) := by
  obtain ⟨f, hf⟩ := r.exists_allowed
  obtain ⟨row, hrow, rfl⟩ := (allows_of_not_isEmpty he).mp hf
  obtain ⟨o, -, hagree⟩ := exists_agreeing_eq hl hall hrow
  have hne : ∀ v ∈ found.columns, r.valueIn row v ≠ Key.empty := fun v hv => (hagree v hv).1
  have hcols : ∀ v ∈ found.columns, v ∈ r.columns := fun v hv => mem_columns_of_valueIn (hne v hv)
  have hbinds : found.columns.filter r.binds = found.columns :=
    List.filter_eq_self.mpr fun v hv => h.binds_iff.mpr ⟨row, hrow, hne v hv⟩
  have hbase : r.base = r := if_neg (by simp [he])
  have hsize : ¬ r.limit < r.rows.toList.length := by
    rw [h.limit, Array.length_toList]
    exact Nat.not_lt.mpr h.size_le
  rw [combine_eq h.toIndexed, hbase, hbinds, join_eq h.toIndexed hl.exact.toIndexed,
    nestedJoin_eq_self hl hall hcols, addColumns_of_subset hcols, if_neg hsize,
    h.toExact.index_eq]

end

/-! ## Changes that fit -/

/-- What a change allows fits a relation of its own. -/
def Change.Fits (change : Change) : Prop :=
  ∃ m : Relation, m.size ≤ maxRows ∧ ∀ f, change.Allows f → m.Has f

theorem Change.Fits.mono {change change' : Change} (h : change.Fits)
    (hsub : ∀ f, change'.Allows f → change.Allows f) : change'.Fits := by
  obtain ⟨m, hsize, hall⟩ := h
  exact ⟨m, hsize, fun f hf => hall f (hsub f hf)⟩

/-- The keys of a variable are tuples of one key. -/
theorem Change.allows_keys_iff {var : String} {keys : Keys} {f : String → Key} :
    (Change.keys var keys).Allows f ↔
      (Change.tuples [var] (keys.toList.map fun k => [k])).Allows f := by
  simp [Change.Allows, Std.ExtTreeSet.mem_toList]

theorem exists_lists_of_fits (hne : names ≠ []) (hlen : ∀ keys ∈ tuples, keys.length = names.length)
    (h : (Change.tuples names tuples).Fits) :
    ∃ found, ofTuples names tuples = (.ok (), found) ∧ Lists names tuples found := by
  obtain ⟨outcome, found, hfound⟩ : ∃ outcome found, ofTuples names tuples = (outcome, found) :=
    ⟨_, _, rfl⟩
  cases outcome with
  | error e =>
    obtain ⟨-, fs, hnd, hlt, hfs⟩ := exists_assignments_of_error hne hlen hfound
    obtain ⟨m, hsize, hall⟩ := h
    have hle := length_le_size hnd fun f hf => hall f (hfs f hf)
    exact absurd (hlt.trans_le hle) (Nat.not_lt.mpr hsize)
  | ok u => exact ⟨found, hfound, ofTuples_spec hne hlen hfound⟩

theorem fits_of_bindTuples (hne : names ≠ []) (hlen : ∀ keys ∈ tuples, keys.length = names.length)
    (h : r.bindTuples names tuples = (.ok (), r')) : (Change.tuples names tuples).Fits := by
  rcases r.bindTuples_cases hne hlen with ⟨herr, -⟩ | ⟨found, hl, -⟩
  · rw [herr] at h
    cases h
  · exact ⟨found, hl.size_le, fun f hf => (hl.has f).mpr hf⟩

/-- A change that has been applied fits. -/
theorem Tidy.fits_of_apply {change : Change} (h : r.Tidy) (heven : r.Even vars)
    (hp : change.Proper) (happ : r.apply change = (.ok (), r')) : change.Fits := by
  cases change with
  | check holds =>
    refine ⟨r.clear.addUnit, ?_, fun f hf => (has_unit r).mpr hf.2⟩
    simp [size, addUnit, clear, maxRows]
  | keys var keys =>
    have htidy := h.apply heven hp happ
    have hlen := length_of_mem_singletons var keys
    have happ : r.bindKeys var keys = (.ok (), r') := happ
    unfold bindKeys at happ
    simp only at happ
    split at happ
    · next he =>
      have he : r.isEmpty = true := (Bool.and_eq_true_iff.mp he).1
      obtain ⟨-, -, hhas⟩ := insertAll_spec h.toIndexed
        (fun g hg => absurd hg (not_has_of_isEmpty he)) (List.cons_ne_nil var []) hlen happ
      exact ⟨r', htidy.size_le, fun f hf => (hhas f).mpr (.inr (Change.allows_keys_iff.mp hf))⟩
    · exact (fits_of_bindTuples (List.cons_ne_nil var []) hlen happ).mono
        fun f => Change.allows_keys_iff.mp
  | tuples names tuples => exact fits_of_bindTuples hp.1 hp.2 happ

/-! ## Changes that are part of the rows -/

theorem bindTuples_eq_self (h : r.Tidy) (he : r.isEmpty = false) (hne : names ≠ [])
    (hlen : ∀ keys ∈ tuples, keys.length = names.length)
    (hfits : (Change.tuples names tuples).Fits)
    (hall : ∀ f, r.Has f → ∃ b, (Change.tuples names tuples).Allows b ∧ ∀ v ∈ names, f v = b v) :
    r.bindTuples names tuples = (.ok (), r) := by
  obtain ⟨found, hfound, hl⟩ := exists_lists_of_fits hne hlen hfits
  rw [bindTuples, hfound]
  refine combine_eq_self hl (fun f hf => ?_) h he
  obtain ⟨b, hb, heq⟩ := hall f hf
  exact ⟨b, (hl.has b).mpr hb, heq⟩

/-- A change that fits, and of which each row has a part in it, leaves the relation as it is. -/
theorem Tidy.apply_eq_self {change : Change} (h : r.Tidy) (he : r.isEmpty = false)
    (hp : change.Proper) (hfits : change.Fits)
    (hall : ∀ f, r.Has f → ∃ b, change.Allows b ∧ ∀ v ∈ change.vars, f v = b v) :
    r.apply change = (.ok (), r) := by
  cases change with
  | check holds =>
    obtain ⟨f, hf⟩ := r.exists_allowed
    obtain ⟨b, ⟨hholds, -⟩, -⟩ := hall f ((allows_of_not_isEmpty he).mp hf)
    simp [Relation.apply, check, hholds, he]
  | keys var keys =>
    have hkeys : r.apply (.keys var keys) =
        r.bindTuples [var] (keys.toList.map fun k => [k]) := by
      simp [Relation.apply, bindKeys, he]
    rw [hkeys]
    refine bindTuples_eq_self h he (List.cons_ne_nil var []) (length_of_mem_singletons var keys)
      (hfits.mono fun f => Change.allows_keys_iff.mpr) fun f hf => ?_
    obtain ⟨b, hb, heq⟩ := hall f hf
    exact ⟨b, Change.allows_keys_iff.mp hb, heq⟩
  | tuples names tuples => exact bindTuples_eq_self h he hp.1 hp.2 hfits hall

end Relation

end TripleStore
