import TripleStore.Proofs.Relation.Exact
import TripleStore.Relation.Buffered

/-!
# Relations in row buffers are relations

`Holds` says that a relation is what is kept in buffers.  Each operation on the
buffers has the outcome of the operation on the relation, and keeps the relation
that the latter leaves.  What is in the pool does not matter.

The index of the buffers is filled variable by variable in another order than
that of the relation, and is the same because both have the bindings of the same
rows and nothing else.
-/

namespace TripleStore

namespace BufferedRelation

/-- A relation is kept in buffers. -/
structure Holds (b : BufferedRelation) (r : Relation) : Prop where
  /-- The columns are those of the relation. -/
  columns : b.columns = r.columns
  /-- The map of positions gives each variable its column. -/
  positions : ∀ v : String, b.positions[v]? = r.position? v
  /-- The buffers have the rows. -/
  rows : b.rows = r.rows.map RowBuffer.ofRow
  /-- The index is that of the relation. -/
  index : b.index = r.index
  /-- The limit is that of the relation. -/
  limit : b.limit = r.limit

variable {b o : BufferedRelation} {r s : Relation}

theorem Holds.view_eq (h : b.Holds r) : b.view = r := by
  refine Relation.ext h.columns ?_ h.index h.limit
  show b.rows.map RowBuffer.row = r.rows
  have hrow : (RowBuffer.row ∘ RowBuffer.ofRow) = id := funext RowBuffer.row_ofRow
  rw [h.rows, Array.map_map, hrow, Array.map_id]

/-- The pool is no part of the relation. -/
theorem Holds.withPool (h : b.Holds r) (pool : RowPool) :
    ({ b with pool } : BufferedRelation).Holds r :=
  ⟨h.columns, h.positions, h.rows, h.index, h.limit⟩

/-! ## Columns -/

theorem idxOf?_concat (columns : List String) (var v : String) :
    (columns ++ [var]).idxOf? v =
      (columns.idxOf? v).or (if var = v then some columns.length else none) := by
  simp only [List.idxOf?, List.findIdx?_append]
  by_cases hv : var = v
  · simp [hv]
  · simp [hv]

theorem ensureColumn_spec (h : b.Holds r) (var : String) :
    (b.ensureColumn var).1 = (Relation.addColumn r.columns var).idxOf var ∧
      (b.ensureColumn var).2.Holds { r with columns := Relation.addColumn r.columns var } := by
  rw [ensureColumn, h.positions]
  by_cases hv : var ∈ r.columns
  · rw [Relation.position?_of_mem hv, Relation.addColumn, if_pos hv]
    exact ⟨rfl, h⟩
  · have hnone : r.position? var = none := List.idxOf?_eq_none_iff.mpr hv
    rw [hnone, Relation.addColumn, if_neg hv]
    refine ⟨?_, ?_, fun v => ?_, h.rows, h.index, h.limit⟩
    · rw [List.idxOf_append_of_notMem hv, List.idxOf_cons_self, Nat.add_zero, h.columns]
    · rw [h.columns]
    · show (b.positions.insert var b.columns.length)[v]? = (r.columns ++ [var]).idxOf? v
      rw [Std.ExtTreeMap.getElem?_insert, idxOf?_concat, h.positions, h.columns]
      by_cases hvar : var = v
      · subst hvar
        have hnone : r.columns.idxOf? var = none := hnone
        simp [hnone]
      · simp [hvar, Relation.position?]

theorem ensureColumns_spec (h : b.Holds r) (vars : List String) :
    (b.ensureColumns vars).1 = vars.map (Relation.addColumns r.columns vars).idxOf ∧
      (b.ensureColumns vars).2.Holds { r with columns := Relation.addColumns r.columns vars } := by
  induction vars generalizing b r with
  | nil => exact ⟨rfl, h⟩
  | cons var vars ih =>
    obtain ⟨hpos, hfirst⟩ := ensureColumn_spec h var
    obtain ⟨hrest, hall⟩ := ih hfirst
    refine ⟨?_, hall⟩
    -- the column of the first variable stays where it is
    obtain ⟨more, hmore⟩ :=
      Relation.addColumns_eq_append (Relation.addColumn r.columns var) vars
    have hidx : (Relation.addColumns r.columns (var :: vars)).idxOf var =
        (Relation.addColumn r.columns var).idxOf var := by
      show (Relation.addColumns (Relation.addColumn r.columns var) vars).idxOf var = _
      rw [hmore, List.idxOf_append_of_mem (Relation.mem_addColumn.mpr (.inr rfl))]
    rw [ensureColumns, List.map_cons, hidx, hpos, hrest]
    rfl

theorem holds_new (vars : List String) : (new vars).Holds (Relation.new vars) :=
  (ensureColumns_spec (b := empty) (r := ⟨[], #[], ∅, Relation.maxRows⟩)
    ⟨rfl, fun _ => by simp [empty, Relation.position?], by simp [empty], rfl, rfl⟩ vars).2

theorem holds_withLimit (vars : List String) (limit : Nat) :
    (withLimit vars limit).Holds (Relation.withLimit vars limit) :=
  have h := holds_new vars
  ⟨h.columns, h.positions, h.rows, h.index, rfl⟩

/-! ## The index -/

theorem common?_cons_cons (var : String) (k : Key) (q : String × Key)
    (rest : List (String × Key)) : r.common? ((var, k) :: q :: rest) =
      match r.slots? var k, r.common? (q :: rest) with
      | some s, some t => some (s ∩ t)
      | _, _ => none := rfl

/-- The slots of several bindings do not depend on the order in which they are met. -/
theorem meet_some (t : Slots) (bs : List (String × Key)) :
    meet r.index (some t) bs = if bs = [] then some t else (r.common? bs).map (t ∩ ·) := by
  induction bs generalizing t with
  | nil => rfl
  | cons p rest ih =>
    obtain ⟨var, k⟩ := p
    rw [meet, if_neg (List.cons_ne_nil _ _)]
    cases hs : r.index[var]?.bind fun m => m[k]? with
    | none =>
      have hslots : r.slots? var k = none := hs
      cases rest <;> simp [Relation.common?, hslots]
    | some s =>
      have hslots : r.slots? var k = some s := hs
      show meet r.index (some (t ∩ s)) rest = _
      rw [ih]
      cases rest with
      | nil => simp [Relation.common?, hslots]
      | cons q rest =>
        rw [if_neg (List.cons_ne_nil _ _), common?_cons_cons, hslots]
        cases r.common? (q :: rest) with
        | none => rfl
        | some u =>
          refine congrArg some (Std.ExtTreeSet.ext_mem fun i => ?_)
          simp only [Std.ExtTreeSet.mem_inter_iff, and_assoc]

theorem meet_none (bs : List (String × Key)) : meet r.index none bs = r.common? bs := by
  cases bs with
  | nil => rfl
  | cons p rest =>
    obtain ⟨var, k⟩ := p
    rw [meet]
    cases hs : r.index[var]?.bind fun m => m[k]? with
    | none =>
      have hslots : r.slots? var k = none := hs
      cases rest <;> simp [Relation.common?, hslots]
    | some s =>
      have hslots : r.slots? var k = some s := hs
      show meet r.index (some s) rest = _
      rw [meet_some]
      cases rest with
      | nil => simp [Relation.common?, hslots]
      | cons q rest =>
        rw [if_neg (List.cons_ne_nil _ _), common?_cons_cons, hslots]
        cases r.common? (q :: rest) <;> rfl

section Bindings

variable {index : RowIndex} {p : String → Key → Nat → Prop}

theorem holds_indexBindings (h : index.Holds p) (slot : Nat) (row : RowBuffer)
    (positions : List (String × Nat)) :
    RowIndex.Holds (indexBindings slot row positions index) fun v k i =>
      p v k i ∨ i = slot ∧ k ≠ Key.empty ∧ ∃ j, (v, j) ∈ positions ∧ row.value j = k := by
  induction positions generalizing index p with
  | nil => exact h.congr (by simp)
  | cons q positions ih =>
    obtain ⟨var, pos⟩ := q
    refine (ih (h.binding slot var (row.value pos))).congr fun v k i => ?_
    simp only [List.mem_cons, Prod.mk.injEq]
    constructor
    · rintro ((hp | ⟨hi, hk, rfl, hval⟩) | ⟨hi, hk, j, hj, hval⟩)
      · exact .inl hp
      · exact .inr ⟨hi, hk, pos, .inl ⟨rfl, rfl⟩, hval⟩
      · exact .inr ⟨hi, hk, j, .inr hj, hval⟩
    · rintro (hp | ⟨hi, hk, j, ⟨rfl, rfl⟩ | hj, hval⟩)
      · exact .inl (.inl hp)
      · exact .inl (.inr ⟨hi, hk, rfl, hval⟩)
      · exact .inr ⟨hi, hk, j, hj, hval⟩

theorem tight_indexBindings (h : index.Tight) (slot : Nat) (row : RowBuffer)
    (positions : List (String × Nat)) :
    RowIndex.Tight (indexBindings slot row positions index) := by
  induction positions generalizing index with
  | nil => exact h
  | cons q positions ih => exact ih (h.binding slot q.1 (row.value q.2))

/-- The order in which the bindings of a row are put into the index does not matter. -/
theorem indexBindings_eq {positions : Std.ExtTreeMap String Nat compare} {columns : List String}
    (hpos : ∀ (v : String) j, positions[v]? = some j ↔ columns[j]? = some v) (h : index.Holds p)
    (ht : index.Tight) (slot : Nat) (row : Row) :
    indexBindings slot (RowBuffer.ofRow row) positions.toList index =
      Relation.indexRow slot row 0 columns index := by
  refine RowIndex.Holds.unique (holds_indexBindings h slot _ _)
    ((h.row slot row 0 columns).congr ?_)
    (tight_indexBindings ht slot _ _) (ht.row slot row 0 columns)
  intro v k i
  simp only [Std.ExtTreeMap.mem_toList_iff_getElem?_eq_some, hpos, RowBuffer.value_ofRow,
    Nat.zero_add]

end Bindings

theorem position?_eq_some_iff (hnd : r.columns.Nodup) {v : String} {j : Nat} :
    r.position? v = some j ↔ r.columns[j]? = some v := by
  by_cases hv : v ∈ r.columns
  · rw [Relation.position?_of_mem hv, Option.some_inj]
    constructor
    · rintro rfl
      rw [List.getElem?_eq_getElem (List.idxOf_lt_length_of_mem hv), List.getElem_idxOf]
    · intro hj
      obtain ⟨hlt, rfl⟩ := List.getElem?_eq_some_iff.mp hj
      exact hnd.idxOf_getElem j hlt
  · have hnone : r.position? v = none := List.idxOf?_eq_none_iff.mpr hv
    rw [hnone]
    refine iff_of_false nofun fun hj => hv ?_
    exact List.mem_of_getElem? hj

theorem Holds.positions_iff (h : b.Holds r) (hnd : r.columns.Nodup) (v : String) (j : Nat) :
    b.positions[v]? = some j ↔ r.columns[j]? = some v := by
  rw [h.positions, position?_eq_some_iff hnd]

/-- A row below the last slot is indexed as a row of the relation. -/
theorem indexRow_eq {p : String → Key → Nat → Prop} (h : b.Holds r) (hnd : r.columns.Nodup)
    (hp : r.index.Holds p) (ht : r.index.Tight) {slot : Nat} (hslot : slot < UInt32.size)
    (row : Row) :
    b.indexRow slot (RowBuffer.ofRow row) =
      (.ok (), { b with index := Relation.indexRow slot row 0 r.columns r.index }) := by
  rw [indexRow, if_neg (Nat.not_le.mpr hslot), h.index,
    indexBindings_eq (h.positions_iff hnd) hp ht]

theorem indexRows_eq {p : String → Key → Nat → Prop} (h : b.Holds r) (hnd : r.columns.Nodup)
    (hp : r.index.Holds p) (ht : r.index.Tight) {slot : Nat} {rows : List Row}
    (hslots : slot + rows.length ≤ UInt32.size) :
    b.indexRows slot (rows.map RowBuffer.ofRow) =
      (.ok (), { b with index := Relation.indexRows r.columns slot rows r.index }) := by
  induction rows generalizing b r p slot with
  | nil => rw [Relation.indexRows, ← h.index]; rfl
  | cons row rows ih =>
    rw [List.length_cons] at hslots
    rw [List.map_cons, indexRows, indexRow_eq h hnd hp ht (by omega)]
    have hnext : ({ b with index := Relation.indexRow slot row 0 r.columns r.index } :
        BufferedRelation).Holds
          { r with index := Relation.indexRow slot row 0 r.columns r.index } :=
      ⟨h.columns, h.positions, h.rows, rfl, h.limit⟩
    exact ih hnext hnd (hp.row slot row 0 r.columns) (ht.row slot row 0 r.columns) (by omega)

/-- The index that is built again from the rows is the index of the rows. -/
theorem rebuildIndex_eq (h : b.Holds r) (hnd : r.columns.Nodup)
    (hslots : r.rows.size ≤ UInt32.size) :
    b.rebuildIndex =
      (.ok (), { b with index := Relation.indexRows r.columns 0 r.rows.toList ∅ }) := by
  have hempty : ({ b with index := ∅ } : BufferedRelation).Holds { r with index := ∅ } :=
    ⟨h.columns, h.positions, h.rows, rfl, h.limit⟩
  have hrows : b.rows.toList = r.rows.toList.map RowBuffer.ofRow := by rw [h.rows, Array.toList_map]
  rw [rebuildIndex, hrows]
  refine indexRows_eq hempty hnd RowIndex.holds_empty RowIndex.tight_empty ?_
  rwa [Array.length_toList, Nat.zero_add]

/-! ## Rows -/

theorem Holds.clear (h : b.Holds r) : b.clear.Holds r.clear :=
  ⟨h.columns, h.positions, by simp [BufferedRelation.clear, Relation.clear], rfl, h.limit⟩

theorem Holds.addUnit (h : b.Holds r) : b.addUnit.Holds r.addUnit := by
  refine ⟨h.columns, h.positions, ?_, h.index, h.limit⟩
  show b.rows.push b.pool.acquire.1 = (r.rows.push Row.unit).map RowBuffer.ofRow
  rw [RowPool.acquire_fst, h.rows, Array.map_push]

theorem Holds.skips_eq (h : b.Holds r) (tuple : List (String × Key)) :
    b.skips tuple = r.skips tuple := by
  have hmeet : meet b.index none tuple = r.common? tuple := h.index ▸ meet_none tuple
  have hcarries : b.carries tuple = r.carries tuple := by
    cases hcommon : r.common? tuple <;> simp [carries, Relation.carries, hmeet, hcommon]
  rw [skips, Relation.skips, hcarries]

/-- Keys that are written into a buffer are the keys written into its row. -/
theorem foldl_set_ofRow (columns : List String) (tuple : List (String × Key)) (row : Row) :
    (((tuple.map (·.1)).map columns.idxOf).zip (tuple.map (·.2))).foldl
        (fun row p => row.set p.1 p.2) (RowBuffer.ofRow row) =
      RowBuffer.ofRow (tuple.foldl (fun row p => row.set (columns.idxOf p.1) p.2) row) := by
  induction tuple generalizing row with
  | nil => rfl
  | cons p tuple ih =>
    simp only [List.map_cons, List.zip_cons_cons, List.foldl_cons, RowBuffer.set_ofRow]
    exact ih (row.set (columns.idxOf p.1) p.2)

/-- An insertion into a relation that succeeds does so in the buffers. -/
theorem insert_ok {r' : Relation} {tuple : List (String × Key)} (h : b.Holds r) (he : r.Exact)
    (hins : r.insert tuple = .ok r') :
    (b.insert tuple).1 = .ok () ∧ (b.insert tuple).2.Holds r' := by
  rw [Relation.insert, ← h.skips_eq, ← h.limit] at hins
  rw [insert]
  split at hins
  · next hskip =>
    obtain rfl := Except.ok.inj hins
    rw [if_pos hskip]
    exact ⟨rfl, h⟩
  · next hskip =>
    have hsize : b.rows.size = r.size := by rw [h.rows, Array.size_map, Relation.size]
    rw [if_neg hskip, hsize]
    split at hins
    · cases hins
    · next hfull =>
      obtain rfl := Except.ok.inj hins
      rw [if_neg hfull]
      obtain ⟨hpos, hwide⟩ := ensureColumns_spec h (tuple.map (·.1))
      have hnd : (Relation.addColumns r.columns (tuple.map (·.1))).Nodup :=
        Relation.nodup_addColumns he.columns_nodup
      have hslot : r.size < UInt32.size := by
        have hmax := he.limit_le
        rw [Relation.maxRows, ← h.limit] at hmax
        omega
      have hrows : b.rows.push (RowBuffer.ofRow (Relation.rowOf
          (Relation.addColumns r.columns (tuple.map (·.1))) tuple)) =
            (r.append tuple).rows.map RowBuffer.ofRow := by
        rw [h.rows, ← Array.map_push]
        rfl
      simp only [hpos, RowPool.acquire_fst, foldl_set_ofRow]
      rw [← Relation.rowOf, hrows]
      have hpushed : ∀ pool, ({ (b.ensureColumns (tuple.map (·.1))).2 with
          rows := (r.append tuple).rows.map RowBuffer.ofRow, pool } : BufferedRelation).Holds
            { r.append tuple with index := r.index } :=
        fun _ => ⟨hwide.columns, hwide.positions, rfl, hwide.index, hwide.limit⟩
      rw [indexRow_eq (hpushed _) hnd he.toIndexed.index he.tight hslot]
      exact ⟨rfl, hwide.columns, hwide.positions, rfl, rfl, hwide.limit⟩

/-- An insertion into a relation that fails does so in the buffers, and changes nothing there. -/
theorem insert_error {e : Fault} {tuple : List (String × Key)} (h : b.Holds r)
    (hins : r.insert tuple = .error e) : b.insert tuple = (.error e, b) := by
  have hsize : b.rows.size = r.size := by rw [h.rows, Array.size_map, Relation.size]
  rw [Relation.insert, ← h.skips_eq, ← h.limit, ← hsize] at hins
  rw [insert]
  split at hins
  · cases hins
  · next hskip =>
    split at hins
    · next hfull =>
      obtain rfl := Except.error.inj hins
      rw [if_neg hskip, if_pos hfull]
    · cases hins

theorem insertAll_spec (h : b.Holds r) (he : r.Exact) (vars : List String)
    (tuples : List (List Key)) :
    (b.insertAll vars tuples).1 = (r.insertAll vars tuples).1 ∧
      (b.insertAll vars tuples).2.Holds (r.insertAll vars tuples).2 := by
  induction tuples generalizing b r with
  | nil => exact ⟨rfl, h⟩
  | cons keys rest ih =>
    rw [insertAll, Relation.insertAll]
    cases hins : r.insert (vars.zip keys) with
    | ok r' =>
      obtain ⟨hok, hholds⟩ := insert_ok h he hins
      rcases hb : b.insert (vars.zip keys) with ⟨outcome, b'⟩
      rw [hb] at hok hholds
      obtain rfl : outcome = .ok () := hok
      exact ih hholds (he.insert hins)
    | error e =>
      rw [insert_error h hins]
      exact ⟨rfl, h⟩

/-! ## Joins -/

theorem partners_ofRow (h : b.Holds r) (ho : o.Holds s) (on : List String) (row : Row) :
    b.partners o on (RowBuffer.ofRow row) = (r.partners s on row).map RowBuffer.ofRow := by
  have hbindings : (on.mapM fun var =>
      b.positions[var]?.map fun i => (var, (RowBuffer.ofRow row).value i)) =
        r.bindings? row on := by
    rw [Relation.bindings?]
    congr 1
    funext var
    rw [h.positions]
    simp only [RowBuffer.value_ofRow]
  rw [partners, Relation.partners, hbindings, ho.rows, ho.index]
  split
  · rw [Array.toList_map]
  · cases r.bindings? row on with
    | none => rfl
    | some bs =>
      simp only [meet_none]
      cases s.common? bs with
      | none => rfl
      | some slots =>
        simp only [Array.getElem?_map, List.map_filterMap]

theorem foldl_joinRow (row other : Row) (pos : Nat) (ts : List Nat) :
    (ts.zipIdx pos).foldl (fun b t => b.set t.1 ((RowBuffer.ofRow other).value t.2))
        (RowBuffer.ofRow row) =
      RowBuffer.ofRow (Relation.merge row other pos ts) := by
  induction ts generalizing row pos with
  | nil => rfl
  | cons t ts ih =>
    rw [List.zipIdx_cons, List.foldl_cons, RowBuffer.set_ofRow, RowBuffer.value_ofRow, ih]
    rfl

/-- A joined row is the merged row, whatever was in the buffer it is made in. -/
theorem joinRow_fst (ts : List Nat) (row other : Row) (pool : RowPool) :
    (joinRow ts.zipIdx (RowBuffer.ofRow row) (RowBuffer.ofRow other) pool).1 =
      RowBuffer.ofRow (Relation.merge row other 0 ts) := by
  rw [joinRow, RowBuffer.copyFrom_eq]
  exact foldl_joinRow row other 0 ts

theorem joinRowAll_fst (ts : List Nat) (row : Row) (others : List Row) (pool : RowPool) :
    (joinRowAll ts.zipIdx (RowBuffer.ofRow row) (others.map RowBuffer.ofRow) pool).1 =
      (others.map fun other => Relation.merge row other 0 ts).map RowBuffer.ofRow := by
  induction others generalizing pool with
  | nil => rfl
  | cons other others ih =>
    simp only [List.map_cons, joinRowAll, joinRow_fst, ih]

/-- The rows of a join are made in buffers as they are made without, up to the same row. -/
theorem joinRows_spec (limit : Nat) {partners : Row → List Row}
    {partners' : RowBuffer → List RowBuffer}
    (hpartners : ∀ row, partners' (RowBuffer.ofRow row) = (partners row).map RowBuffer.ofRow)
    (ts : List Nat) (rows : List Row) (done : Array Row) (pool : RowPool) :
    match Relation.joinRows limit partners (fun row o => Relation.merge row o 0 ts) rows done with
    | none => (joinRows limit partners' ts.zipIdx (rows.map RowBuffer.ofRow)
        (done.map RowBuffer.ofRow) pool).1 = true
    | some out => (joinRows limit partners' ts.zipIdx (rows.map RowBuffer.ofRow)
        (done.map RowBuffer.ofRow) pool).1 = false ∧
      (joinRows limit partners' ts.zipIdx (rows.map RowBuffer.ofRow)
        (done.map RowBuffer.ofRow) pool).2.1 = out.map RowBuffer.ofRow := by
  induction rows generalizing done pool with
  | nil => exact ⟨rfl, rfl⟩
  | cons row rows ih =>
    simp only [List.map_cons, joinRows, Relation.joinRows, hpartners, Array.size_map,
      List.length_map]
    by_cases hover : limit < done.size + (partners row).length
    · simp only [if_pos hover]
    · simp only [if_neg hover]
      have hmade : done.map RowBuffer.ofRow ++
          (joinRowAll ts.zipIdx (RowBuffer.ofRow row) ((partners row).map RowBuffer.ofRow)
            pool).1.toArray =
          (done ++ ((partners row).map fun o => Relation.merge row o 0 ts).toArray).map
            RowBuffer.ofRow := by
        simp [joinRowAll_fst]
      rw [hmade]
      exact ih _ _

/-- A join of buffers keeps the join of the relations. -/
theorem join_spec (h : b.Holds r) (ho : o.Holds s) (he : r.Exact) (on : List String) :
    (b.join o on).1 = (r.join s on).1 ∧ (b.join o on).2.Holds (r.join s on).2 := by
  obtain ⟨hpos, hwide⟩ := ensureColumns_spec h o.columns
  rw [ho.columns] at hpos hwide
  have hmade := joinRows_spec r.limit (partners_ofRow hwide ho on)
    (Relation.targets (Relation.addColumns r.columns s.columns) s.columns) r.rows.toList #[] b.pool
  have hrows : b.rows.toList = r.rows.toList.map RowBuffer.ofRow := by rw [h.rows, Array.toList_map]
  rw [join, Relation.join, ho.columns, h.limit, hrows, hpos]
  rw [Relation.targets] at hmade ⊢
  rw [Array.map_empty] at hmade
  rcases hjoined : joinRows r.limit ((b.ensureColumns s.columns).2.partners o on)
    (s.columns.map (Relation.addColumns r.columns s.columns).idxOf).zipIdx
    (r.rows.toList.map RowBuffer.ofRow) #[] b.pool with ⟨full, made, pool⟩
  rw [hjoined] at hmade
  cases hrel : Relation.joinRows r.limit
      (({ r with columns := Relation.addColumns r.columns s.columns } : Relation).partners s on)
      (fun row o => Relation.merge row o 0
        (s.columns.map (Relation.addColumns r.columns s.columns).idxOf)) r.rows.toList #[] with
  | none =>
    rw [hrel] at hmade
    obtain rfl : full = true := hmade
    refine ⟨rfl, hwide.columns, hwide.positions, ?_, rfl, hwide.limit⟩
    simp [BufferedRelation.clear, Relation.clear]
  | some out =>
    rw [hrel] at hmade
    obtain ⟨rfl, rfl⟩ : full = false ∧ made = out.map RowBuffer.ofRow := hmade
    have hout : out.size ≤ UInt32.size := by
      have hlimit := he.limit_le
      have hsize := Relation.size_le_of_joinRows (Nat.zero_le _) hrel
      rw [Relation.maxRows] at hlimit
      omega
    have hrebuilt : ∀ pool, ({ (b.ensureColumns s.columns).2 with
        rows := out.map RowBuffer.ofRow, pool } : BufferedRelation).rebuildIndex = _ :=
      fun pool => rebuildIndex_eq
        (r := { r with columns := Relation.addColumns r.columns s.columns, rows := out })
        ⟨hwide.columns, hwide.positions, rfl, hwide.index, hwide.limit⟩
        (Relation.nodup_addColumns he.columns_nodup) hout
    simp only [Bool.false_eq_true, if_false, hrebuilt]
    exact ⟨trivial, hwide.columns, hwide.positions, rfl, rfl, hwide.limit⟩

/-- Rows that are taken over are those of the other relation. -/
theorem replaceWith_spec (h : b.Holds r) (ho : o.Holds s) (he : r.Exact) :
    (b.replaceWith o).1 = (r.replaceWith s).1 ∧ (b.replaceWith o).2.Holds (r.replaceWith s).2 :=
  join_spec h.clear.addUnit ho he.clear.addUnit []

end BufferedRelation

end TripleStore
