import Mathlib.Data.List.ProdSigma
import Mathlib.Data.List.Sort
import TripleStore.Proofs.Relation.Index
import TripleStore.Relation.Join

/-!
# The join

A join that succeeds gives the rows of `nestedJoin`, in the same order, and
their index.  A row that was joined binds what its partner binds, and what it
bound before elsewhere.
-/

namespace TripleStore

/-! ## Overlays -/

/-- An assignment in which a second one takes precedence where it binds. -/
def overlay (f g : String → Key) : String → Key := fun v => if g v = Key.empty then f v else g v

theorem overlay_empty_left (g : String → Key) : overlay (fun _ => Key.empty) g = g := by
  funext v
  rw [overlay]
  split
  · next h => exact h.symm
  · rfl

theorem overlay_ne_empty {f g : String → Key} {v : String} :
    overlay f g v ≠ Key.empty ↔ f v ≠ Key.empty ∨ g v ≠ Key.empty := by
  rw [overlay]
  split
  · next h => simp [h]
  · next h => simp [h]

namespace Relation

/-! ## Partners -/

theorem filterMap_slots {rows : Array Row} {s : Slots} {P : Row → Bool}
    (h : ∀ i, i ∈ s ↔ ∃ row, rows[i]? = some row ∧ P row = true) :
    s.toList.filterMap (fun i => rows[i]?) = rows.toList.filter P := by
  have hs : s.toList = (List.range rows.size).filter fun i => rows[i]?.any P := by
    have hord : s.toList.Pairwise (· < ·) :=
      Std.ExtTreeSet.ordered_toList.imp fun h => Nat.compare_eq_lt.mp h
    refine hord.eq_of_mem_iff (List.pairwise_lt_range.filter _) fun i => ?_
    rw [Std.ExtTreeSet.mem_toList, h, List.mem_filter, List.mem_range]
    constructor
    · rintro ⟨row, hrow, hP⟩
      exact ⟨(Array.getElem?_eq_some_iff.mp hrow).1, by simp [hrow, hP]⟩
    · rintro ⟨hlt, hP⟩
      rw [Array.getElem?_eq_getElem hlt] at hP ⊢
      exact ⟨rows[i], rfl, by simpa using hP⟩
  have hrows : rows.toList = (List.range rows.size).filterMap fun i => rows[i]? := by
    apply List.ext_getElem?
    intro n
    rw [show (fun i => rows[i]?) = fun i => rows.toList[i]? by simp, ← Array.length_toList]
    generalize rows.toList = l
    induction l generalizing n with
    | nil => simp
    | cons a l ih =>
      rw [List.length_cons, List.range_succ_eq_map]
      cases n with
      | zero => simp
      | succ n => simpa [List.filterMap_map, Function.comp_def] using ih n
  rw [hs, hrows, List.filterMap_filter, List.filter_filterMap]
  congr 1
  funext i
  cases rows[i]? <;> simp [Option.filter]

/-- The bindings of a row are the keys it has in the columns. -/
theorem bindings?_spec (r : Relation) (row : Row) (vars : List String) :
    r.bindings? row vars =
      if ∀ v ∈ vars, v ∈ r.columns then some (vars.map fun v => (v, r.valueIn row v))
      else none := by
  induction vars with
  | nil => rfl
  | cons v vars ih =>
    rw [bindings?] at ih ⊢
    rw [List.mapM_cons, ih]
    by_cases hv : v ∈ r.columns
    · have hpos : r.position? v = some (r.columns.idxOf v) := position?_of_mem hv
      rw [hpos]
      by_cases hvs : ∀ v ∈ vars, v ∈ r.columns
      · rw [if_pos hvs, if_pos (by simpa [hv] using hvs)]
        simp [valueIn_of_mem hv]
      · rw [if_neg hvs, if_neg (by simpa [hv] using hvs)]
        rfl
    · have hpos : r.position? v = none := List.idxOf?_eq_none_iff.mpr hv
      simp [hpos, hv]

/-- The partners found in the index are the rows that agree. -/
theorem partners_eq {r other : Relation} (h : other.Indexed) (on : List String) (row : Row) :
    r.partners other on row =
      other.rows.toList.filter fun o => on.all (r.agreeOn other row o) := by
  cases on with
  | nil => simp [partners]
  | cons var vars =>
    simp only [partners, List.isEmpty_cons, Bool.false_eq_true, if_false, bindings?_spec]
    split
    · next heq =>
      -- a variable without a column agrees with nothing
      split at heq
      · cases heq
      · next hcol =>
        obtain ⟨v, hv, hcol⟩ : ∃ v ∈ var :: vars, v ∉ r.columns := by
          simpa only [not_forall, exists_prop] using hcol
        refine (List.filter_eq_nil_iff.mpr fun o _ hall => ?_).symm
        have hagree := List.all_eq_true.mp hall v hv
        simp [agreeOn, valueIn_of_notMem hcol, Key.isEmpty] at hagree
    · next bs heq =>
      split at heq
      · obtain rfl := Option.some.inj heq
        have hcarries : ∀ i, Indexed.RowCarries other
            ((var :: vars).map fun v => (v, r.valueIn row v)) i ↔
            ∃ o, other.rows[i]? = some o ∧ (var :: vars).all (r.agreeOn other row o) = true := by
          intro i
          refine exists_congr fun o => and_congr_right fun _ => ?_
          simp only [List.forall_mem_map, List.all_eq_true, agreeOn, Key.isEmpty, Bool.and_eq_true,
            Bool.not_eq_true', decide_eq_false_iff_not, decide_eq_true_eq]
          exact forall₂_congr fun v _ => and_congr_right fun _ => eq_comm
        have hne : ((var :: vars).map fun v => (v, r.valueIn row v)) ≠ [] := by simp
        obtain ⟨hsome, hnone⟩ := h.common?_spec hne
        split
        · next hc =>
          refine (List.filter_eq_nil_iff.mpr fun o ho hall => ?_).symm
          obtain ⟨i, hi⟩ := Array.mem_iff_getElem?.mp (Array.mem_toList_iff.mp ho)
          exact hnone hc i ((hcarries i).mpr ⟨o, hi, hall⟩)
        · next s hc => exact filterMap_slots fun i => (hsome s hc i).trans (hcarries i)
      · cases heq

/-! ## Merged rows -/

theorem value_merge {row o : Row} {columns vars : List String} {pos : Nat} {v : String}
    (hnd : vars.Nodup) (hsub : ∀ w ∈ vars, w ∈ columns) :
    (merge row o pos (targets columns vars)).value (columns.idxOf v) =
      if v ∈ vars ∧ o.value (pos + vars.idxOf v) ≠ Key.empty then o.value (pos + vars.idxOf v)
      else row.value (columns.idxOf v) := by
  induction vars generalizing row pos with
  | nil => simp [targets, merge]
  | cons w vars ih =>
    obtain ⟨hw, hnd⟩ := List.nodup_cons.mp hnd
    show (merge (row.set (columns.idxOf w) (o.value pos)) o (pos + 1) (targets columns vars)).value
      (columns.idxOf v) = _
    rw [ih hnd fun w h => hsub w (List.mem_cons_of_mem _ h)]
    by_cases hvw : v = w
    · subst hvw
      rw [if_neg (fun h => hw h.1), List.idxOf_cons_self, Nat.add_zero]
      by_cases he : o.value pos = Key.empty
      · rw [he, Row.set_empty]
        simp
      · rw [Row.value_set _ _ _ _ (by simpa [Key.isEmpty] using he)]
        simp [he]
    · have hset : (row.set (columns.idxOf w) (o.value pos)).value (columns.idxOf v) =
          row.value (columns.idxOf v) := by
        by_cases he : o.value pos = Key.empty
        · rw [he, Row.set_empty]
        · rw [Row.value_set _ _ _ _ (by simpa [Key.isEmpty] using he), if_neg]
          intro hidx
          exact hvw ((List.idxOf_inj (hsub w List.mem_cons_self)).mp hidx).symm
      have hidx : pos + 1 + vars.idxOf v = pos + (w :: vars).idxOf v := by
        rw [List.idxOf_cons_ne _ (Ne.symm hvw)]
        omega
      simp only [hset, hidx, List.mem_cons, hvw, false_or]

theorem width_merge_le {row o : Row} {pos n : Nat} {ts : List Nat} (hr : row.width ≤ n)
    (hts : ∀ i ∈ ts, i < n) : (merge row o pos ts).width ≤ n := by
  induction ts generalizing row pos with
  | nil => exact hr
  | cons i ts ih =>
    exact ih (Row.width_set_le hr (hts i List.mem_cons_self))
      fun i h => hts i (List.mem_cons_of_mem _ h)

/-- A joined row binds what its partner binds, and what it bound before elsewhere. -/
theorem valueIn_merge {r r' other : Relation} {row o : Row}
    (hc : r'.columns = addColumns r.columns other.columns) (hnd : other.columns.Nodup)
    (hw : row.width ≤ r.columns.length) :
    r'.valueIn (merge row o 0 (targets r'.columns other.columns)) =
      overlay (r.valueIn row) (other.valueIn o) := by
  obtain ⟨more, hmore⟩ := addColumns_eq_append r.columns other.columns
  funext v
  rw [← valueIn_widen (hc.trans hmore) hw]
  by_cases hv : v ∈ r'.columns
  · rw [valueIn_of_mem hv, value_merge hnd (fun w hw => by rw [hc, mem_addColumns]; exact .inr hw),
      overlay, valueIn_of_mem hv, Nat.zero_add]
    by_cases hvo : v ∈ other.columns
    · simp [valueIn_of_mem hvo, hvo]
    · simp [valueIn_of_notMem hvo, hvo]
  · have hvo : v ∉ other.columns := fun h => hv (by rw [hc, mem_addColumns]; exact .inr h)
    rw [overlay, valueIn_of_notMem hv, valueIn_of_notMem hv, valueIn_of_notMem hvo, if_pos rfl]

/-! ## Pairs of rows -/

/-- Columns that are added go to the end, each that is new once. -/
theorem addColumns_eq_filter (columns : List String) {vars : List String} (hnd : vars.Nodup) :
    addColumns columns vars = columns ++ vars.filter (· ∉ columns) := by
  induction vars generalizing columns with
  | nil => simp [addColumns]
  | cons var vars ih =>
    obtain ⟨hvar, hnd⟩ := List.nodup_cons.mp hnd
    show addColumns (addColumn columns var) vars = _
    rw [ih _ hnd, addColumn]
    by_cases hmem : var ∈ columns
    · simp [hmem]
    · have hrest : vars.filter (· ∉ columns ++ [var]) = vars.filter (· ∉ columns) := by
        refine List.filter_congr fun v hv => ?_
        have hne : v ≠ var := fun heq => hvar (heq ▸ hv)
        simp [hne]
      rw [if_neg hmem, hrest, List.filter_cons_of_pos (by simpa using hmem), List.append_assoc,
        List.singleton_append]

/-- The pairs of rows that agree on some variables. -/
def pairs (r other : Relation) (on : List String) : List (Row × Row) :=
  (r.rows.toList ×ˢ other.rows.toList).filter fun p => on.all (r.agreeOn other p.1 p.2)

/-- The join by comparing all pairs merges the pairs that agree. -/
theorem nestedJoin_eq_pairs (r other : Relation) (on : List String) :
    r.nestedJoin other on = (r.pairs other on).map fun p =>
      merge p.1 p.2 0 (targets (addColumns r.columns other.columns) other.columns) := by
  show _ = List.map _
    (List.filter _ (r.rows.toList.flatMap fun row => other.rows.toList.map (row, ·)))
  rw [List.filter_flatMap, List.map_flatMap, nestedJoin]
  refine List.flatMap_congr fun row _ => ?_
  rw [List.filter_map, List.map_map]
  rfl

/-! ## The join -/

/-- The rows made before stay, and the pairs of all rows follow unless there are too many. -/
theorem joinRows_eq {limit : Nat} {partners : Row → List Row} {combine : Row → Row → Row}
    {rows : List Row} {done : Array Row} (hdone : done.size ≤ limit) :
    joinRows limit partners combine rows done =
      if limit < done.size + (rows.flatMap fun row => (partners row).map (combine row)).length
      then none
      else some (done ++ (rows.flatMap fun row => (partners row).map (combine row)).toArray) := by
  induction rows generalizing done with
  | nil => simp [joinRows, hdone]
  | cons row rows ih =>
    have hlen : ((row :: rows).flatMap fun row => (partners row).map (combine row)).length =
        (partners row).length +
          (rows.flatMap fun row => (partners row).map (combine row)).length := by
      rw [List.flatMap_cons, List.length_append, List.length_map]
    rw [joinRows, hlen]
    by_cases hover : limit < done.size + (partners row).length
    · rw [if_pos hover, if_pos (by omega)]
    · rw [if_neg hover, ih (by simpa using hover), List.flatMap_cons]
      simp [Nat.add_assoc]

theorem size_le_of_joinRows {limit : Nat} {partners : Row → List Row} {combine : Row → Row → Row}
    {rows : List Row} {done out : Array Row} (hdone : done.size ≤ limit)
    (h : joinRows limit partners combine rows done = some out) : out.size ≤ limit := by
  rw [joinRows_eq hdone] at h
  split at h
  · cases h
  · next hfits =>
    obtain rfl := Option.some.inj h
    rwa [Array.size_append, List.size_toArray, ← Nat.not_lt]

/-- What a join that succeeds leaves. -/
structure Joined (r other : Relation) (on : List String) (r' : Relation) : Prop where
  /-- The columns of both. -/
  columns : r'.columns = addColumns r.columns other.columns
  /-- The rows of the join. -/
  rows : r'.rows.toList = r.nestedJoin other on
  /-- The limit stays. -/
  limit : r'.limit = r.limit
  /-- The index is the index of the rows. -/
  indexed : r'.Indexed

theorem indexed_of_rows {columns : List String} {rows : Array Row} {limit : Nat}
    (hnd : columns.Nodup) (hfits : ∀ row ∈ rows, row.width ≤ columns.length) :
    Indexed ⟨columns, rows, indexRows columns 0 rows.toList ∅, limit⟩ := by
  refine ⟨hnd, hfits, ?_⟩
  refine (RowIndex.holds_empty.rows columns 0 rows.toList).congr fun v k i => ?_
  simp only [false_or, Nat.zero_add]
  refine and_congr_right fun hk => ?_
  constructor
  · rintro ⟨n, row, hrow, rfl, hj⟩
    refine ⟨row, by simpa using hrow, ?_⟩
    exact (exists_column_iff (r := ⟨columns, rows, _, limit⟩) hnd hk).mp hj
  · rintro ⟨row, hrow, hval⟩
    exact ⟨i, row, by simpa using hrow, rfl,
      (exists_column_iff (r := ⟨columns, rows, _, limit⟩) hnd hk).mpr hval⟩

/-- The join by the index is the join by comparing all pairs, unless that has too many rows. -/
theorem join_eq {r other : Relation} (hr : r.Indexed) (ho : other.Indexed) (on : List String) :
    r.join other on =
      if r.limit < (r.nestedJoin other on).length then
        (.error (.rowLimit r.limit),
          { r with columns := addColumns r.columns other.columns }.clear)
      else
        (.ok (), ⟨addColumns r.columns other.columns, (r.nestedJoin other on).toArray,
          indexRows (addColumns r.columns other.columns) 0 (r.nestedJoin other on) ∅, r.limit⟩) := by
  obtain ⟨more, hmore⟩ := addColumns_eq_append r.columns other.columns
  have hpairs : (r.rows.toList.flatMap fun row =>
      (({ r with columns := addColumns r.columns other.columns } : Relation).partners other on
        row).map fun o =>
          merge row o 0 (targets (addColumns r.columns other.columns) other.columns)) =
      r.nestedJoin other on := by
    refine List.flatMap_congr fun row hrow => ?_
    have hw := hr.fits row (Array.mem_toList_iff.mp hrow)
    rw [partners_eq ho]
    congr 2
    funext o
    congr 1
    funext v
    rw [agreeOn, agreeOn, valueIn_widen hmore hw]
  rw [join]
  simp only
  rw [joinRows_eq (Nat.zero_le _), hpairs, List.size_toArray, List.length_nil, Nat.zero_add]
  by_cases hover : r.limit < (r.nestedJoin other on).length
  · rw [if_pos hover, if_pos hover]
  · rw [if_neg hover, if_neg hover]
    simp

theorem width_le_of_mem_nestedJoin {r other : Relation} {on : List String} {row : Row}
    (hr : r.Indexed) (hrow : row ∈ r.nestedJoin other on) :
    row.width ≤ (addColumns r.columns other.columns).length := by
  obtain ⟨base, hbase, hrow⟩ := List.mem_flatMap.mp hrow
  obtain ⟨o, -, rfl⟩ := List.mem_map.mp hrow
  refine width_merge_le ?_ fun i hi => ?_
  · exact le_trans (hr.fits base (Array.mem_toList_iff.mp hbase)) (length_le_addColumns _ _)
  · obtain ⟨v, hv, rfl⟩ := List.mem_map.mp hi
    exact List.idxOf_lt_length_of_mem (mem_addColumns.mpr (.inr hv))

theorem join_spec {r other r' : Relation} {on : List String} (hr : r.Indexed) (ho : other.Indexed)
    (h : r.join other on = (.ok (), r')) : Joined r other on r' := by
  rw [join_eq hr ho] at h
  split at h
  · cases h
  · obtain rfl := (Prod.mk.inj h).2
    refine ⟨rfl, rfl, rfl, indexed_of_rows (nodup_addColumns hr.columns_nodup) ?_⟩
    intro row hrow
    exact width_le_of_mem_nestedJoin hr (List.mem_toArray.mp hrow)

/-- The rows of a join are the overlays of the rows that agree. -/
theorem Joined.has_iff {r other r' : Relation} {on : List String} (h : Joined r other on r')
    (hr : r.Indexed) (ho : other.Indexed) {f : String → Key} :
    r'.Has f ↔ ∃ a b, r.Has a ∧ other.Has b ∧
      (∀ v ∈ on, a v ≠ Key.empty ∧ a v = b v) ∧ f = overlay a b := by
  have hmem : ∀ row, row ∈ r'.rows ↔ row ∈ r.nestedJoin other on := by
    intro row
    rw [← h.rows, Array.mem_toList_iff]
  have hagree : ∀ row o, on.all (r.agreeOn other row o) = true ↔
      ∀ v ∈ on, r.valueIn row v ≠ Key.empty ∧ r.valueIn row v = other.valueIn o v := by
    intro row o
    simp [agreeOn, Key.isEmpty]
  constructor
  · rintro ⟨row, hrow, rfl⟩
    obtain ⟨base, hbase, hrow⟩ := List.mem_flatMap.mp ((hmem row).mp hrow)
    obtain ⟨o, ho', rfl⟩ := List.mem_map.mp hrow
    obtain ⟨ho', hall⟩ := List.mem_filter.mp ho'
    have hbase := Array.mem_toList_iff.mp hbase
    refine ⟨_, _, ⟨base, hbase, rfl⟩, ⟨o, Array.mem_toList_iff.mp ho', rfl⟩,
      (hagree base o).mp hall, ?_⟩
    rw [← h.columns, valueIn_merge h.columns ho.columns_nodup (hr.fits base hbase)]
  · rintro ⟨-, -, ⟨base, hbase, rfl⟩, ⟨o, ho', rfl⟩, hall, rfl⟩
    refine ⟨merge base o 0 (targets r'.columns other.columns), ?_,
      valueIn_merge h.columns ho.columns_nodup (hr.fits base hbase)⟩
    rw [hmem, nestedJoin, List.mem_flatMap, h.columns]
    refine ⟨base, Array.mem_toList_iff.mpr hbase, List.mem_map.mpr ⟨o, ?_, rfl⟩⟩
    exact List.mem_filter.mpr ⟨Array.mem_toList_iff.mpr ho', (hagree base o).mpr hall⟩

end Relation

end TripleStore
