import TripleStore.Proofs.Relation.Change

/-!
# Relations whose index is exact

An index is tight if it has no variable without keys.  Together with `Indexed`,
which says that no set of slots is empty, nothing is left in the index of rows
that are gone, so that the rows settle the index (`RowIndex.Holds.unique`).

`Exact` is `Indexed` with a tight index and a limit that slots can count to.  All
operations keep it, also where they fail.
-/

namespace TripleStore

/-! ## Tight indexes -/

namespace RowIndex

/-- No variable is there without keys. -/
def Tight (index : RowIndex) : Prop :=
  ∀ (var : String) (m : Std.ExtTreeMap Key Slots compare), index[var]? = some m → m ≠ ∅

theorem tight_empty : RowIndex.Tight ∅ := by
  intro var m hm
  simp at hm

variable {index : RowIndex}

theorem Tight.cell (h : index.Tight) (slot : Nat) (var : String) (k : Key) :
    RowIndex.Tight (Relation.indexCell index slot var k) := by
  intro v m hm
  rw [Relation.indexCell, Std.ExtTreeMap.getElem?_alter] at hm
  split at hm
  · -- the key that was just put there is a key of the variable
    obtain rfl := Option.some.inj hm
    rw [ne_eq, Std.ExtTreeMap.eq_empty_iff_forall_not_mem]
    exact fun hnone => hnone k (by simp)
  · exact h v m hm

theorem Tight.binding (h : index.Tight) (slot : Nat) (var : String) (k : Key) :
    RowIndex.Tight (if k.isEmpty then index else Relation.indexCell index slot var k) := by
  split
  · exact h
  · exact h.cell slot var k

theorem Tight.row (h : index.Tight) (slot : Nat) (row : Row) (pos : Nat) (vars : List String) :
    RowIndex.Tight (Relation.indexRow slot row pos vars index) := by
  induction vars generalizing index pos with
  | nil => exact h
  | cons var vars ih => exact ih (h.binding slot var (row.value pos)) (pos + 1)

theorem Tight.rows (h : index.Tight) (columns : List String) (slot : Nat) (rows : List Row) :
    RowIndex.Tight (Relation.indexRows columns slot rows index) := by
  induction rows generalizing index slot with
  | nil => exact h
  | cons row rows ih => exact ih (h.row slot row 0 columns) (slot + 1)

/-- A tight index has a variable if and only if it has slots for it. -/
theorem Tight.absent_iff (h : index.Tight) {var : String} :
    index[var]? = none ↔ ∀ k, index.look var k = none := by
  constructor
  · intro hnone k
    rw [look, hnone, Option.bind_none]
  · intro hall
    cases hm : index[var]? with
    | none => rfl
    | some m =>
      refine absurd (Std.ExtTreeMap.eq_empty_iff_forall_not_mem.mpr fun k hk => ?_) (h var m hm)
      have hlook := hall k
      rw [look, hm, Option.bind_some] at hlook
      exact (getElem?_eq_none_iff m k).mp hlook hk

/-- What a tight index holds settles the index. -/
theorem Holds.unique {index' : RowIndex} {p : String → Key → Nat → Prop} (h : index.Holds p)
    (h' : index'.Holds p) (ht : index.Tight) (ht' : index'.Tight) : index = index' := by
  have hlook : ∀ var k, index.look var k = index'.look var k := by
    intro var k
    cases hs : index.look var k with
    | none =>
      cases hs' : index'.look var k with
      | none => rfl
      | some s' =>
        obtain ⟨i, hi⟩ := (h'.present var k s' hs').1
        exact absurd hi (h.absent var k hs i)
    | some s =>
      obtain ⟨⟨i, hi⟩, hmem⟩ := h.present var k s hs
      cases hs' : index'.look var k with
      | none => exact absurd hi (h'.absent var k hs' i)
      | some s' =>
        refine congrArg some (Std.ExtTreeSet.ext_mem fun i => ?_)
        rw [hmem, (h'.present var k s' hs').2]
  refine Std.ExtTreeMap.ext_getElem? fun var => ?_
  have hnone : index[var]? = none ↔ index'[var]? = none := by
    rw [ht.absent_iff, ht'.absent_iff]
    exact forall_congr' fun k => by rw [hlook]
  cases hm : index[var]? with
  | none => exact (hnone.mp hm).symm
  | some m =>
    cases hm' : index'[var]? with
    | none => rw [hnone.mpr hm'] at hm; cases hm
    | some m' =>
      refine congrArg some (Std.ExtTreeMap.ext_getElem? fun k => ?_)
      simpa [look, hm, hm'] using hlook var k

end RowIndex

namespace Relation

/-! ## Exact relations -/

/-- The index of a relation has the bindings of its rows and nothing else. -/
structure Exact (r : Relation) : Prop extends r.Indexed where
  /-- No variable is in the index without keys. -/
  tight : r.index.Tight
  /-- There are slots for as many rows as there may be. -/
  limit_le : r.limit ≤ maxRows

variable {r other : Relation}

theorem exact_new (vars : List String) : (Relation.new vars).Exact :=
  ⟨indexed_new vars, RowIndex.tight_empty, le_refl _⟩

theorem exact_withLimit (vars : List String) (limit : Nat) : (withLimit vars limit).Exact :=
  have h := indexed_new vars
  ⟨⟨h.columns_nodup, h.fits, h.index⟩, RowIndex.tight_empty, Nat.min_le_right _ _⟩

namespace Exact

theorem clear (h : r.Exact) : r.clear.Exact :=
  ⟨h.toIndexed.clear, RowIndex.tight_empty, h.limit_le⟩

/-- Columns may be added where there are no rows. -/
theorem clear_widened (h : r.Exact) (vars : List String) :
    ({ r with columns := addColumns r.columns vars } : Relation).clear.Exact := by
  refine ⟨⟨nodup_addColumns h.columns_nodup, by simp [Relation.clear], ?_⟩,
    RowIndex.tight_empty, h.limit_le⟩
  exact RowIndex.holds_empty.congr (by simp [Relation.clear])

theorem addUnit (h : r.Exact) : r.addUnit.Exact :=
  ⟨h.toIndexed.addUnit, h.tight, h.limit_le⟩

theorem append (h : r.Exact) (tuple : List (String × Key)) : (r.append tuple).Exact :=
  ⟨indexed_append h.toIndexed tuple, h.tight.row _ _ _ _, h.limit_le⟩

theorem insert {r' : Relation} {tuple : List (String × Key)} (h : r.Exact)
    (hins : r.insert tuple = .ok r') : r'.Exact := by
  rw [Relation.insert] at hins
  split at hins
  · exact Except.ok.inj hins ▸ h
  · split at hins
    · cases hins
    · exact Except.ok.inj hins ▸ h.append tuple

theorem insertAll (h : r.Exact) (vars : List String) (tuples : List (List Key)) :
    (r.insertAll vars tuples).2.Exact := by
  induction tuples generalizing r with
  | nil => exact h
  | cons keys rest ih =>
    rw [Relation.insertAll]
    split
    · next hins => exact ih (h.insert hins)
    · exact h

/-- A join leaves an exact relation, whether or not the rows fit. -/
theorem join (h : r.Exact) (ho : other.Exact) (on : List String) : (r.join other on).2.Exact := by
  rw [join_eq h.toIndexed ho.toIndexed]
  split
  · exact h.clear_widened other.columns
  · refine ⟨indexed_of_rows (nodup_addColumns h.columns_nodup) fun row hrow => ?_, ?_, h.limit_le⟩
    · exact width_le_of_mem_nestedJoin h.toIndexed (List.mem_toArray.mp hrow)
    · exact RowIndex.tight_empty.rows _ _ _

theorem replaceWith (h : r.Exact) (ho : other.Exact) : (r.replaceWith other).2.Exact :=
  h.clear.addUnit.join ho []

/-- The index is the one that is built from the rows. -/
theorem index_eq (h : r.Exact) : indexRows r.columns 0 r.rows.toList ∅ = r.index := by
  have hrows : Indexed ⟨r.columns, r.rows, indexRows r.columns 0 r.rows.toList ∅, r.limit⟩ :=
    indexed_of_rows h.columns_nodup h.fits
  exact hrows.index.unique h.index (RowIndex.tight_empty.rows _ _ _) h.tight

end Exact

end Relation

end TripleStore
