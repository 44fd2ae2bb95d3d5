import Mathlib.Data.List.Perm.Basic
import TripleStore.Proofs.Relation.Distinct

/-!
# Relations joined with tuples

What rows become when tuples are bound depends only on the assignments that the
tuples stand for near the rows.  Tuples that stand for others as well, or for the
same in another order, leave the same rows.  If the rows bind all the variables
already, each row is kept or dropped, and they leave the same relation.

The one thing that may differ is whether the tuples fit a relation of their own.
They fail to do so only if there are more of them than any relation has rows, and
then the rows are not touched.
-/

namespace TripleStore

namespace Relation

variable {r r' found found' : Relation} {vars names : List String}
  {tuples tuples' : List (List Key)}

/-! ## Rows and what they bind -/

/-- A variable that some row binds is bound by all rows. -/
def Level (r : Relation) : Prop :=
  ∀ v, r.binds v = true → ∀ row ∈ r.rows, r.valueIn row v ≠ Key.empty

theorem Level.even (h : r.Level) (hi : r.Indexed) : r.Even (r.columns.filter r.binds) := by
  intro f hf v
  rw [List.mem_filter]
  rw [Allows] at hf
  split at hf
  · next he =>
    subst hf
    refine iff_of_false (fun hne => hne rfl) fun hv => ?_
    obtain ⟨row, hrow, -⟩ := hi.binds_iff.mp hv.2
    exact not_has_of_isEmpty he ⟨row, hrow, rfl⟩
  · obtain ⟨row, hrow, rfl⟩ := hf
    refine ⟨fun hne => ⟨mem_columns_of_valueIn hne, hi.binds_iff.mpr ⟨row, hrow, hne⟩⟩, ?_⟩
    exact fun hv => h v hv.2 row hrow

/-- A row that binds all columns has what it binds in its cells. -/
theorem cells_eq {row : Row} (hnd : r.columns.Nodup) (hw : row.width ≤ r.columns.length)
    (hall : ∀ v ∈ r.columns, r.valueIn row v ≠ Key.empty) :
    row.cells = r.columns.map (r.valueIn row) := by
  have hvalue : ∀ i (hi : i < r.columns.length), r.valueIn row r.columns[i] = row.value i := by
    intro i hi
    rw [valueIn_of_mem (List.getElem_mem hi), hnd.idxOf_getElem i hi]
  have hlen : row.cells.length = r.columns.length := by
    refine Nat.le_antisymm hw (Nat.not_lt.mp fun hlt => ?_)
    refine hall _ (List.getElem_mem hlt) ?_
    rw [hvalue _ hlt]
    exact Row.value_of_width_le (Nat.le_refl _)
  refine List.ext_getElem (by rw [hlen, List.length_map]) fun i hi hi' => ?_
  rw [List.getElem_map, hvalue i (hlen ▸ hi)]
  exact (List.getD_eq_getElem _ _ hi).symm

/-- A row of a list of tuples is settled by what it binds. -/
theorem Lists.row_eq {o o' : Row} (h : Lists names tuples found)
    (h' : Lists names tuples' found') (ho : o ∈ found.rows) (ho' : o' ∈ found'.rows)
    (heq : found.valueIn o = found'.valueIn o') : o = o' := by
  have hcols : found.columns = found'.columns := h.columns.trans h'.columns.symm
  have hall : ∀ v ∈ found.columns, found.valueIn o v ≠ Key.empty :=
    fun v hv => ((h.has _).mp ⟨o, ho, rfl⟩).1 v |>.mpr (h.mem_vars hv)
  have hall' : ∀ v ∈ found'.columns, found'.valueIn o' v ≠ Key.empty :=
    fun v hv => ((h'.has _).mp ⟨o', ho', rfl⟩).1 v |>.mpr (h'.mem_vars hv)
  refine Row.ext ?_
  rw [cells_eq h.exact.columns_nodup (h.exact.fits o ho) hall,
    cells_eq h'.exact.columns_nodup (h'.exact.fits o' ho') hall', heq, hcols]

/-- No two rows of a list of tuples agree on all its variables. -/
theorem Lists.eq_of_agree {o o' : Row} (h : Lists names tuples found) (ho : o ∈ found.rows)
    (ho' : o' ∈ found.rows) (heq : ∀ v ∈ found.columns, found.valueIn o v = found.valueIn o' v) :
    o = o' := by
  refine h.row_eq h ho ho' ?_
  refine ((h.has _).mp ⟨o, ho, rfl⟩).1.eq ((h.has _).mp ⟨o', ho', rfl⟩).1
    (List.map_congr_left fun v hv => heq v ?_)
  exact h.columns ▸ mem_addColumns.mpr (.inr hv)

/-- All rows of a list of tuples bind its variables. -/
theorem Lists.level (h : Lists names tuples found) : found.Level := by
  intro v hv row hrow
  obtain ⟨row', hrow', hne⟩ := h.exact.toIndexed.binds_iff.mp hv
  have hv : v ∈ names := (((h.has _).mp ⟨row', hrow', rfl⟩).1 v).mp hne
  exact (((h.has _).mp ⟨row, hrow, rfl⟩).1 v).mpr hv

/-- The values of a variable are those that the tuples have for it. -/
theorem Lists.mem_valuesFor (h : Lists names tuples found) {v : String} {k : Key} :
    k ∈ found.valuesFor v ↔
      k ≠ Key.empty ∧ ∃ f, Binds f names ∧ names.map f ∈ tuples ∧ f v = k := by
  rw [h.exact.toIndexed.mem_valuesFor]
  refine and_congr_right fun _ => ⟨?_, ?_⟩
  · rintro ⟨row, hrow, hv⟩
    obtain ⟨hb, hmem⟩ := (h.has _).mp ⟨row, hrow, rfl⟩
    exact ⟨_, hb, hmem, hv⟩
  · rintro ⟨f, hb, hmem, hv⟩
    obtain ⟨row, hrow, rfl⟩ := (h.has f).mpr ⟨hb, hmem⟩
    exact ⟨row, hrow, hv⟩

/-! ## Tuples that do not fit -/

/-- Tuples that do not fit a relation of their own stand for more assignments than it may have
rows. -/
theorem exists_assignments_of_error {e : Fault} (hne : names ≠ [])
    (hlen : ∀ keys ∈ tuples, keys.length = names.length)
    (h : ofTuples names tuples = (.error e, found)) :
    e = .rowLimit maxRows ∧ ∃ fs : List (String → Key), fs.Nodup ∧ maxRows < fs.length ∧
      ∀ f ∈ fs, Binds f names ∧ names.map f ∈ tuples := by
  have hins := inserted_ofTuples hne hlen
  rw [h] at hins
  rcases hins.outcome with ⟨hok, -⟩ | ⟨herr, hfull, f, hf, hn⟩
  · cases hok
  · refine ⟨Except.error.inj herr, f :: found.assignments, ?_, ?_, ?_⟩
    · exact List.nodup_cons.mpr ⟨fun hmem => hn (mem_assignments.mp hmem),
        hins.distinct (distinct_of_isEmpty rfl)⟩
    · rw [List.length_cons, length_assignments]
      exact Nat.lt_succ_of_le hfull
    · refine List.forall_mem_cons.mpr ⟨hf, fun g hg => ?_⟩
      exact (hins.sound g (mem_assignments.mp hg)).resolve_left (not_has_of_isEmpty rfl)

/-- They are more than it may have rows. -/
theorem lt_length_of_ofTuples {e : Fault} (hne : names ≠ [])
    (hlen : ∀ keys ∈ tuples, keys.length = names.length)
    (h : ofTuples names tuples = (.error e, found)) :
    e = .rowLimit maxRows ∧ maxRows < tuples.length := by
  obtain ⟨herr, fs, hnd, hlt, hall⟩ := exists_assignments_of_error hne hlen h
  refine ⟨herr, hlt.trans_le ?_⟩
  rw [← List.length_map (f := names.map)]
  refine List.Nodup.length_le_of_subset (hnd.map_on fun g hg g' hg' heq => ?_) fun keys hk => ?_
  · exact (hall g hg).1.eq (hall g' hg').1 heq
  · obtain ⟨g, hg, rfl⟩ := List.mem_map.mp hk
    exact (hall g hg).2

/-- Tuples that are not too many fit. -/
theorem lists_ofTuples (hne : names ≠ []) (hlen : ∀ keys ∈ tuples, keys.length = names.length)
    (hfew : tuples.length ≤ maxRows) : Lists names tuples (ofTuples names tuples).2 := by
  obtain ⟨outcome, found, hfound⟩ : ∃ outcome found, ofTuples names tuples = (outcome, found) :=
    ⟨_, _, rfl⟩
  rw [hfound]
  cases outcome with
  | ok _ => exact ofTuples_spec hne hlen hfound
  | error e => exact absurd hfew (Nat.not_le.mpr (lt_length_of_ofTuples hne hlen hfound).2)

/-! ## Tuples that say the same near the rows -/

/-- Tuples stand for the same assignments among those that agree with a row. -/
def SameNear (r : Relation) (names : List String) (tuples tuples' : List (List Key)) : Prop :=
  ∀ a b, r.Allows a → Agree a b → Binds b names → (names.map b ∈ tuples ↔ names.map b ∈ tuples')

theorem SameNear.symm (h : r.SameNear names tuples tuples') : r.SameNear names tuples' tuples :=
  fun a b ha hab hb => (h a b ha hab hb).symm

/-- The rows of another relation that agree with a row. -/
def agreeing (r other : Relation) (on : List String) (row : Row) : List Row :=
  other.rows.toList.filter fun o => on.all (r.agreeOn other row o)

theorem mem_agreeing {on : List String} {row o : Row} : o ∈ r.agreeing found on row ↔
    o ∈ found.rows ∧ ∀ v ∈ on, r.valueIn row v ≠ Key.empty ∧
      r.valueIn row v = found.valueIn o v := by
  rw [agreeing, List.mem_filter, Array.mem_toList_iff, List.all_eq_true]
  simp only [agreeOn, Key.isEmpty, Bool.and_eq_true, Bool.not_eq_true', decide_eq_false_iff_not,
    decide_eq_true_eq, ne_eq]

section

variable (h : r.Indexed) (heven : r.Even vars) (hl : Lists names tuples found)
  (hl' : Lists names tuples' found') (hsame : r.SameNear names tuples tuples')
include h heven hl hl' hsame

/-- What agrees with a row is the same. -/
theorem mem_agreeing_of_sameNear {row o : Row} (hrow : row ∈ r.base.rows)
    (ho : o ∈ r.base.agreeing found (found.columns.filter r.binds) row) :
    o ∈ r.base.agreeing found' (found'.columns.filter r.binds) row := by
  obtain ⟨ho, hon⟩ := mem_agreeing.mp ho
  have hcols : found.columns = found'.columns := hl.columns.trans hl'.columns.symm
  have hallows : r.Allows (r.base.valueIn row) := (has_base r).mp ⟨row, hrow, rfl⟩
  have hnear := (agree_iff h heven (fun v hv => hl.mem_vars hv) (fun g hg => ((hl.has g).mp hg).1)
    hallows ⟨o, ho, rfl⟩).mp hon
  obtain ⟨hb, hmem⟩ := (hl.has _).mp ⟨o, ho, rfl⟩
  obtain ⟨o', ho', heq⟩ := (hl'.has _).mpr ⟨hb, (hsame _ _ hallows hnear hb).mp hmem⟩
  obtain rfl := hl.row_eq hl' ho ho' heq.symm
  rw [hcols, ← heq] at hon
  exact mem_agreeing.mpr ⟨ho', hon⟩

theorem agreeing_perm {row : Row} (hrow : row ∈ r.base.rows) :
    (r.base.agreeing found (found.columns.filter r.binds) row).Perm
      (r.base.agreeing found' (found'.columns.filter r.binds) row) := by
  refine (List.perm_ext_iff_of_nodup (hl.distinct.nodup_rows.filter _)
    (hl'.distinct.nodup_rows.filter _)).mpr fun o => ⟨fun ho => ?_, fun ho => ?_⟩
  · exact mem_agreeing_of_sameNear h heven hl hl' hsame hrow ho
  · exact mem_agreeing_of_sameNear h heven hl' hl hsame.symm hrow ho

/-- If all variables are bound, at most one row agrees. -/
theorem agreeing_eq (hbound : ∀ v ∈ names, r.binds v = true) {row : Row}
    (hrow : row ∈ r.base.rows) :
    r.base.agreeing found (found.columns.filter r.binds) row =
      r.base.agreeing found' (found'.columns.filter r.binds) row := by
  have hperm := agreeing_perm h heven hl hl' hsame hrow
  have hone : ∀ o o', o ∈ r.base.agreeing found (found.columns.filter r.binds) row →
      o' ∈ r.base.agreeing found' (found'.columns.filter r.binds) row → o = o' := by
    intro o o' ho ho'
    obtain ⟨ho, hon⟩ := mem_agreeing.mp ho
    obtain ⟨ho', hon'⟩ := mem_agreeing.mp (hperm.mem_iff.mpr ho')
    refine hl.eq_of_agree ho ho' fun v hv => ?_
    have hv : v ∈ found.columns.filter r.binds :=
      List.mem_filter.mpr ⟨hv, hbound v (hl.mem_vars hv)⟩
    exact (hon v hv).2.symm.trans (hon' v hv).2
  have hall : ∀ os : List Row, os.Pairwise fun _ _ => True :=
    fun os => List.pairwise_of_forall fun _ _ => trivial
  exact hperm.eq_of_pairwise (fun o o' ho ho' _ _ => hone o o' ho ho') (hall _) (hall _)

theorem nestedJoin_perm :
    (r.base.nestedJoin found (found.columns.filter r.binds)).Perm
      (r.base.nestedJoin found' (found'.columns.filter r.binds)) := by
  have hcols : found.columns = found'.columns := hl.columns.trans hl'.columns.symm
  refine List.Perm.flatMap_left _ fun row hrow => ?_
  rw [hcols]
  have hperm := agreeing_perm h heven hl hl' hsame (Array.mem_toList_iff.mp hrow)
  rw [hcols] at hperm
  exact hperm.map _

theorem nestedJoin_eq (hbound : ∀ v ∈ names, r.binds v = true) :
    r.base.nestedJoin found (found.columns.filter r.binds) =
      r.base.nestedJoin found' (found'.columns.filter r.binds) := by
  have hcols : found.columns = found'.columns := hl.columns.trans hl'.columns.symm
  refine List.flatMap_congr fun row hrow => ?_
  rw [hcols]
  have heq := agreeing_eq h heven hl hl' hsame hbound (Array.mem_toList_iff.mp hrow)
  rw [hcols] at heq
  exact congrArg _ heq

end

/-! ## Outcomes -/

/-- Two outcomes are the same, up to the order of the rows. -/
structure SameRows (out out' : Except Fault Unit × Relation) : Prop where
  /-- Both succeed, or both fail with the same fault. -/
  outcome : out.1 = out'.1
  /-- The columns are the same. -/
  columns : out.2.columns = out'.2.columns
  /-- The rows are the same, each as often. -/
  rows : out.2.rows.toList.Perm out'.2.rows.toList

theorem sameRows_of_eq {out out' : Except Fault Unit × Relation} (h : out = out') :
    SameRows out out' := by
  subst h
  exact ⟨rfl, rfl, List.Perm.refl _⟩

/-- Combinations with tuples that say the same near the rows leave the same rows. -/
theorem combine_sameNear (h : r.Indexed) (heven : r.Even vars) (hl : Lists names tuples found)
    (hl' : Lists names tuples' found') (hsame : r.SameNear names tuples tuples') :
    SameRows (r.combine found) (r.combine found') ∧
      ((∀ v ∈ names, r.binds v = true) → r.combine found = r.combine found') := by
  have hcols : found.columns = found'.columns := hl.columns.trans hl'.columns.symm
  rw [combine_eq h, combine_eq h, join_eq h.base hl.exact.toIndexed,
    join_eq h.base hl'.exact.toIndexed]
  refine ⟨?_, fun hbound => ?_⟩
  · have hperm := nestedJoin_perm h heven hl hl' hsame
    rw [hperm.length_eq, hcols]
    rw [hcols] at hperm
    split
    · exact sameRows_of_eq rfl
    · exact ⟨rfl, rfl, hperm⟩
  · rw [nestedJoin_eq h heven hl hl' hsame hbound, hcols]

/-- Without tuples no row is left. -/
theorem bindTuples_nil (h : r.Indexed) (names : List String) :
    ∃ left, r.bindTuples names [] = (.ok (), left) ∧ left.isEmpty = true := by
  have hcombine : r.bindTuples names [] = r.combine (new names) := rfl
  have hjoin : r.base.nestedJoin (new names) ((new names).columns.filter r.binds) = [] :=
    List.flatMap_eq_nil_iff.mpr fun _ _ => rfl
  rw [hcombine, combine_eq h, join_eq h.base (indexed_new names), hjoin,
    List.length_nil, if_neg (Nat.not_lt_zero _)]
  exact ⟨_, rfl, rfl⟩

/-- Tuples are bound, or do not fit a relation of their own. -/
theorem bindTuples_cases (r : Relation) (hne : names ≠ [])
    (hlen : ∀ keys ∈ tuples, keys.length = names.length) :
    (r.bindTuples names tuples = (.error (.rowLimit maxRows), r) ∧ maxRows < tuples.length) ∨
      ∃ found, Lists names tuples found ∧ r.bindTuples names tuples = r.combine found := by
  obtain ⟨outcome, found, hfound⟩ : ∃ outcome found, ofTuples names tuples = (outcome, found) :=
    ⟨_, _, rfl⟩
  rw [bindTuples, hfound]
  cases outcome with
  | error e =>
    obtain ⟨rfl, hlt⟩ := lt_length_of_ofTuples hne hlen hfound
    exact .inl ⟨rfl, hlt⟩
  | ok u => exact .inr ⟨found, ofTuples_spec hne hlen hfound, rfl⟩

end Relation

end TripleStore
