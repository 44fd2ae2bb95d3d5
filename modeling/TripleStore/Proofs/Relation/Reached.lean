import TripleStore.Proofs.Relation.Buffered

/-!
# Relations that operations make

`Reached` are the relations that come about by any sequence of operations, on the
relation itself or on others that it is joined with.  An operation that fails
leaves a relation too, and what follows may go on with it.

All of them are exact relations kept in buffers (`Reached.exists_holds`), by one
case for each operation.  So their index mirrors their rows, and a join by the
index is the join by comparing all pairs of rows.
-/

namespace TripleStore

namespace BufferedRelation

/-- The relations that operations make, whether or not they fail. -/
inductive Reached : BufferedRelation → Prop
  | new (vars : List String) : Reached (new vars)
  | withLimit (vars : List String) (limit : Nat) : Reached (withLimit vars limit)
  | addUnit {b : BufferedRelation} (h : Reached b) : Reached b.addUnit
  | insertAll {b : BufferedRelation} (h : Reached b) (vars : List String)
      (tuples : List (List Key)) : Reached (b.insertAll vars tuples).2
  | join {b o : BufferedRelation} (h : Reached b) (ho : Reached o) (on : List String) :
      Reached (b.join o on).2
  | replaceWith {b o : BufferedRelation} (h : Reached b) (ho : Reached o) :
      Reached (b.replaceWith o).2
  | clear {b : BufferedRelation} (h : Reached b) : Reached b.clear

variable {b o : BufferedRelation} {r s : Relation}

theorem Reached.exists_holds (h : b.Reached) : ∃ r, b.Holds r ∧ r.Exact := by
  induction h with
  | new vars => exact ⟨_, holds_new vars, Relation.exact_new vars⟩
  | withLimit vars limit =>
    exact ⟨_, holds_withLimit vars limit, Relation.exact_withLimit vars limit⟩
  | addUnit _ ih =>
    obtain ⟨r, hr, he⟩ := ih
    exact ⟨_, hr.addUnit, he.addUnit⟩
  | insertAll _ vars tuples ih =>
    obtain ⟨r, hr, he⟩ := ih
    exact ⟨_, (insertAll_spec hr he vars tuples).2, he.insertAll vars tuples⟩
  | join _ _ on ih iho =>
    obtain ⟨r, hr, he⟩ := ih
    obtain ⟨s, hs, hes⟩ := iho
    exact ⟨_, (join_spec hr hs he on).2, he.join hes on⟩
  | replaceWith _ _ ih iho =>
    obtain ⟨r, hr, he⟩ := ih
    obtain ⟨s, hs, hes⟩ := iho
    exact ⟨_, (replaceWith_spec hr hs he).2, he.replaceWith hes⟩
  | clear _ ih =>
    obtain ⟨r, hr, he⟩ := ih
    exact ⟨_, hr.clear, he.clear⟩

/-! ## What rows bind -/

theorem Holds.valueIn_ofRow (h : b.Holds r) (row : Row) :
    b.valueIn (RowBuffer.ofRow row) = r.valueIn row := by
  funext v
  rw [valueIn, Relation.valueIn, h.positions]
  cases r.position? v with
  | none => rfl
  | some i => exact RowBuffer.value_ofRow row i

theorem Holds.getElem?_rows (h : b.Holds r) (i : Nat) :
    b.rows[i]? = r.rows[i]?.map RowBuffer.ofRow := by
  rw [h.rows, Array.getElem?_map]

theorem Holds.exists_row_iff (h : b.Holds r) {P : (String → Key) → Prop} :
    (∃ row ∈ b.rows, P (b.valueIn row)) ↔ ∃ row ∈ r.rows, P (r.valueIn row) := by
  rw [h.rows]
  constructor
  · rintro ⟨buffer, hbuffer, hP⟩
    obtain ⟨row, hrow, rfl⟩ := Array.mem_map.mp hbuffer
    exact ⟨row, hrow, h.valueIn_ofRow row ▸ hP⟩
  · rintro ⟨row, hrow, hP⟩
    refine ⟨RowBuffer.ofRow row, Array.mem_map_of_mem hrow, ?_⟩
    rwa [h.valueIn_ofRow]

/-! ## The index -/

/-- The index says of the rows what they bind, and nothing else. -/
structure Mirrored (b : BufferedRelation) : Prop where
  /-- The list of columns and the map of positions are inverse to each other. -/
  column_iff : ∀ (v : String) i, b.positions[v]? = some i ↔ b.columns[i]? = some v
  /-- A variable and a key have the slots of the rows that bind the one to the other. -/
  slot_iff : ∀ (v : String) (k : Key) i, (∃ slots, b.view.slots? v k = some slots ∧ i ∈ slots) ↔
    k ≠ Key.empty ∧ ∃ row, b.rows[i]? = some row ∧ b.valueIn row v = k
  /-- No variable is in the index without keys, and no key without slots. -/
  nonempty : ∀ (v : String) keys, b.index[v]? = some keys →
    keys ≠ ∅ ∧ ∀ (k : Key) slots, keys[k]? = some slots → slots ≠ ∅
  /-- A variable is bound if the index has it. -/
  binds_iff : ∀ v : String, b.view.binds v = true ↔ ∃ row ∈ b.rows, b.valueIn row v ≠ Key.empty
  /-- The keys of a variable are those that rows bind to it. -/
  mem_valuesFor : ∀ (v : String) (k : Key), k ∈ b.view.valuesFor v ↔
    k ≠ Key.empty ∧ ∃ row ∈ b.rows, b.valueIn row v = k

theorem Holds.mirrored (h : b.Holds r) (he : r.Exact) : b.Mirrored := by
  have hview := h.view_eq
  refine ⟨fun v i => ?_, fun v k i => ?_, fun v keys hkeys => ?_, fun v => ?_, fun v k => ?_⟩
  · rw [h.positions_iff he.columns_nodup, h.columns]
  · have hrow : (∃ row, b.rows[i]? = some row ∧ b.valueIn row v = k) ↔
        ∃ row, r.rows[i]? = some row ∧ r.valueIn row v = k := by
      rw [h.getElem?_rows]
      simp only [Option.map_eq_some_iff, exists_exists_and_eq_and, h.valueIn_ofRow]
    rw [hview, hrow]
    constructor
    · rintro ⟨slots, hslots, hi⟩
      exact ((he.toIndexed.index.present v k slots hslots).2 i).mp hi
    · intro hi
      cases hslots : r.slots? v k with
      | none => exact absurd hi (he.toIndexed.index.absent v k hslots i)
      | some slots => exact ⟨slots, rfl, ((he.toIndexed.index.present v k slots hslots).2 i).mpr hi⟩
  · rw [h.index] at hkeys
    refine ⟨he.tight v keys hkeys, fun k slots hslots hempty => ?_⟩
    have hlook : r.index.look v k = some slots := by
      rw [RowIndex.look, hkeys, Option.bind_some, hslots]
    obtain ⟨⟨i, hi⟩, hmem⟩ := he.toIndexed.index.present v k slots hlook
    have hi := (hmem i).mpr hi
    rw [hempty] at hi
    exact Std.ExtTreeSet.not_mem_empty hi
  · rw [hview, he.toIndexed.binds_iff, h.exists_row_iff (P := fun f => f v ≠ Key.empty)]
  · rw [hview, he.toIndexed.mem_valuesFor, h.exists_row_iff (P := fun f => f v = k)]

/-- The index mirrors the rows, whatever was done before. -/
theorem Reached.index_mirrors_rows (h : b.Reached) : b.Mirrored := by
  obtain ⟨r, hr, he⟩ := h.exists_holds
  exact hr.mirrored he

/-- A relation for one row, after the second was refused. -/
theorem mirrored_of_full :
    ((withLimit ["x"] 1).insertAll ["x"] [[⟨1, 1, 1⟩], [⟨1, 2, 1⟩]]).1 = .error (.rowLimit 1) ∧
      ((withLimit ["x"] 1).insertAll ["x"] [[⟨1, 1, 1⟩], [⟨1, 2, 1⟩]]).2.Mirrored :=
  ⟨by decide +kernel, Reached.index_mirrors_rows (.insertAll (.withLimit ["x"] 1) ["x"] _)⟩

/-! ## The join -/

/-- Two rows bind all of some variables, each to the same key. -/
def AgreeOn (b o : BufferedRelation) (on : List String) (p : RowBuffer × RowBuffer) : Prop :=
  ∀ v ∈ on, b.valueIn p.1 v ≠ Key.empty ∧ o.valueIn p.2 v = b.valueIn p.1 v

instance (b o : BufferedRelation) (on : List String) : DecidablePred (b.AgreeOn o on) := by
  unfold AgreeOn
  infer_instance

/-- The pairs of rows that agree, in the order of the first and then of the second. -/
def pairs (b o : BufferedRelation) (on : List String) : List (RowBuffer × RowBuffer) :=
  (b.rows.toList ×ˢ o.rows.toList).filter (b.AgreeOn o on)

theorem Holds.pairs_eq (h : b.Holds r) (ho : o.Holds s) (on : List String) :
    b.pairs o on =
      (r.pairs s on).map (Prod.map RowBuffer.ofRow RowBuffer.ofRow) := by
  have hproduct : b.rows.toList ×ˢ o.rows.toList =
      (r.rows.toList ×ˢ s.rows.toList).map (Prod.map RowBuffer.ofRow RowBuffer.ofRow) := by
    rw [h.rows, ho.rows, Array.toList_map, Array.toList_map]
    show (r.rows.toList.map _).flatMap (fun row => (s.rows.toList.map _).map (row, ·)) =
      (r.rows.toList.flatMap fun row => s.rows.toList.map (row, ·)).map _
    rw [List.flatMap_map, List.map_flatMap]
    simp only [List.map_map]
    rfl
  have hagree : ∀ p, decide (b.AgreeOn o on (Prod.map RowBuffer.ofRow RowBuffer.ofRow p)) =
      on.all (r.agreeOn s p.1 p.2) := by
    intro p
    rw [Bool.eq_iff_iff, decide_eq_true_iff, List.all_eq_true]
    refine forall₂_congr fun v _ => ?_
    simp only [Prod.map_fst, Prod.map_snd, h.valueIn_ofRow, ho.valueIn_ofRow, Relation.agreeOn,
      Key.isEmpty, Bool.and_eq_true, Bool.not_eq_true', decide_eq_false_iff_not,
      decide_eq_true_eq]
    exact and_congr_right fun _ => eq_comm
  rw [pairs, hproduct, List.filter_map]
  congr 1
  exact List.filter_congr fun p _ => hagree p

theorem Holds.join_eq_pairs (h : b.Holds r) (ho : o.Holds s) (he : r.Exact) (hes : s.Exact)
    (on : List String) :
    (b.join o on).2.columns = b.columns ++ o.columns.filter (· ∉ b.columns) ∧
      ((b.pairs o on).length ≤ b.limit →
        (b.join o on).1 = .ok () ∧
          (b.join o on).2.rows.toList.map (b.join o on).2.valueIn =
            (b.pairs o on).map fun p => overlay (b.valueIn p.1) (o.valueIn p.2)) ∧
      (b.limit < (b.pairs o on).length →
        (b.join o on).1 = .error (.rowLimit b.limit) ∧
          (b.join o on).2.rows = #[] ∧ (b.join o on).2.index = ∅) := by
  obtain ⟨houtcome, hjoined⟩ := join_spec h ho he on
  have hlength : (r.nestedJoin s on).length = (b.pairs o on).length := by
    rw [h.pairs_eq ho, Relation.nestedJoin_eq_pairs, List.length_map, List.length_map]
  have hcolumns := Relation.addColumns_eq_filter r.columns hes.columns_nodup
  rw [Relation.join_eq he.toIndexed hes.toIndexed, hlength, ← h.limit] at houtcome hjoined
  by_cases hover : b.limit < (b.pairs o on).length
  · rw [if_pos hover] at houtcome hjoined
    refine ⟨?_, fun hfits => absurd hover (Nat.not_lt.mpr hfits), fun _ => ⟨houtcome, ?_, ?_⟩⟩
    · rw [hjoined.columns, h.columns, ho.columns]
      exact hcolumns
    · rw [hjoined.rows]
      simp [Relation.clear]
    · exact hjoined.index
  · rw [if_neg hover] at houtcome hjoined
    refine ⟨?_, fun _ => ⟨houtcome, ?_⟩, fun hlt => absurd hlt hover⟩
    · rw [hjoined.columns, h.columns, ho.columns]
      exact hcolumns
    · have hrows : (b.join o on).2.rows.toList =
          (r.nestedJoin s on).map RowBuffer.ofRow := by
        rw [hjoined.rows, Array.toList_map]
      rw [hrows, Relation.nestedJoin_eq_pairs, h.pairs_eq ho, List.map_map, List.map_map,
        List.map_map]
      refine List.map_congr_left fun p hp => ?_
      have hfst : p.1 ∈ r.rows :=
        Array.mem_toList_iff.mp (List.pair_mem_product.mp (List.mem_filter.mp hp).1).1
      simp only [Function.comp_apply, Prod.map_fst, Prod.map_snd, hjoined.valueIn_ofRow,
        h.valueIn_ofRow, ho.valueIn_ofRow]
      exact Relation.valueIn_merge rfl hes.columns_nodup (he.fits p.1 hfst)

/-- A join gives the overlays of the pairs that agree, in their order, unless they are too many.
It does not matter which buffers are in the pool. -/
theorem Reached.join_overlays_pairs (h : b.Reached) (ho : o.Reached) (on : List String)
    (pool : RowPool) :
    let joined := ({ b with pool } : BufferedRelation).join o on
    joined.2.columns = b.columns ++ o.columns.filter (· ∉ b.columns) ∧
      ((b.pairs o on).length ≤ b.limit →
        joined.1 = .ok () ∧
          joined.2.rows.toList.map joined.2.valueIn =
            (b.pairs o on).map fun p => overlay (b.valueIn p.1) (o.valueIn p.2)) ∧
      (b.limit < (b.pairs o on).length →
        joined.1 = .error (.rowLimit b.limit) ∧ joined.2.rows = #[] ∧ joined.2.index = ∅) ∧
      joined.1 = (b.view.join o.view on).1 ∧ joined.2.view = (b.view.join o.view on).2 := by
  obtain ⟨r, hr, he⟩ := h.exists_holds
  obtain ⟨s, hs, hes⟩ := ho.exists_holds
  have hpool := hr.withPool pool
  obtain ⟨hcolumns, hfits, hover⟩ := hpool.join_eq_pairs hs he hes on
  obtain ⟨houtcome, hjoined⟩ := join_spec hpool hs he on
  rw [hr.view_eq, hs.view_eq]
  exact ⟨hcolumns, hfits, hover, houtcome, hjoined.view_eq⟩

/-- A relation of two columns, the first of them bound in each row. -/
def colours : BufferedRelation :=
  ((new ["y", "x"]).insertAll ["x"] [[⟨1, 1, 1⟩], [⟨1, 2, 1⟩]]).2

/-- A relation of two columns in another order, in one row. -/
def shapes : BufferedRelation := ((new ["x"]).insertAll ["x", "y"] [[⟨1, 2, 1⟩, ⟨1, 3, 1⟩]]).2

/-- One of two rows has a partner, and is joined with it in a buffer that has old bytes. -/
theorem join_of_stale_pool :
    (colours.pairs shapes ["x"]).length = 1 ∧
      (({ colours with pool := ⟨[⟨[7, 7, 7]⟩]⟩ } : BufferedRelation).join shapes ["x"]).1 =
        .ok () :=
  have hone : (colours.pairs shapes ["x"]).length = 1 := by decide +kernel
  have hjoin := Reached.join_overlays_pairs (b := colours) (o := shapes) (.insertAll (.new _) _ _)
    (.insertAll (.new _) _ _) ["x"] ⟨[⟨[7, 7, 7]⟩]⟩
  ⟨hone, (hjoin.2.1 (by rw [hone]; decide +kernel)).1⟩

end BufferedRelation

end TripleStore
