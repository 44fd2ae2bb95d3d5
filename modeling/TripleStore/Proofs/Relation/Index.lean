import Mathlib.Data.List.GetD
import Mathlib.Data.List.Nodup
import TripleStore.Relation.Basic

/-!
# The index of a relation

The index of a relation has, for a variable and a key, exactly the slots whose
rows bind the variable to the key, and it has no empty sets.  `Indexed` is this
together with what keeps columns apart: no variable has two of them, and no row
is wider than they are.

What the index is asked for is then settled by the rows alone: which variables
are bound, to which keys, and which rows carry several bindings at once.
-/

namespace TripleStore

/-! ## Rows -/

theorem Row.value_of_width_le {row : Row} {i : Nat} (h : row.width ≤ i) :
    row.value i = Key.empty := List.getD_eq_default _ _ h

theorem Row.length_setCell (cs : List Key) (i : Nat) (k : Key) :
    (Row.setCell cs i k).length = max cs.length (i + 1) := by
  fun_induction Row.setCell cs i k with
  | case1 => rfl
  | case2 i _ ih => simp [ih]
  | case3 => simp
  | case4 i _ _ _ ih => simp [ih]

theorem Row.width_set_le {row : Row} {i n : Nat} {k : Key} (hr : row.width ≤ n) (hi : i < n) :
    (row.set i k).width ≤ n := by
  rw [Row.set]
  split
  · exact hr
  · show (Row.setCell row.cells i k).length ≤ n
    rw [Row.length_setCell]
    exact Nat.max_le.mpr ⟨hr, hi⟩

/-! ## What an index has -/

namespace RowIndex

/-- The slots an index has for a variable and a key. -/
def look (index : RowIndex) (var : String) (k : Key) : Option Slots :=
  index[var]?.bind fun m => m[k]?

/-- An index has exactly the given slots for each variable and key. -/
structure Holds (index : RowIndex) (p : String → Key → Nat → Prop) : Prop where
  /-- The sets of slots are right, and not empty. -/
  present : ∀ var k s, index.look var k = some s → (∃ i, p var k i) ∧ ∀ i, i ∈ s ↔ p var k i
  /-- Where there is no set there are no slots. -/
  absent : ∀ var k, index.look var k = none → ∀ i, ¬ p var k i

variable {index : RowIndex} {p q : String → Key → Nat → Prop}

theorem Holds.congr (h : index.Holds p) (hpq : ∀ var k i, p var k i ↔ q var k i) :
    index.Holds q := by
  refine ⟨fun var k s hs => ?_, fun var k hn i hi => h.absent var k hn i ((hpq var k i).mpr hi)⟩
  obtain ⟨⟨i, hi⟩, hmem⟩ := h.present var k s hs
  exact ⟨⟨i, (hpq var k i).mp hi⟩, fun i => (hmem i).trans (hpq var k i)⟩

theorem holds_empty : RowIndex.Holds ∅ fun _ _ _ => False := by
  refine ⟨fun var k s hs => ?_, fun _ _ _ _ h => h⟩
  simp [look] at hs

theorem Holds.isSome_look (h : index.Holds p) {var : String} {k : Key} :
    (index.look var k).isSome ↔ ∃ i, p var k i := by
  cases hl : index.look var k with
  | none => simpa using h.absent var k hl
  | some s => simpa using (h.present var k s hl).1

theorem look_indexCell (slot : Nat) (var v : String) (k l : Key) :
    look (Relation.indexCell index slot var k) v l =
      if var = v ∧ k = l then some (((index.look var k).getD ∅).insert slot)
      else index.look v l := by
  simp only [look, Relation.indexCell]
  rw [Std.ExtTreeMap.getElem?_alter]
  simp only [Std.LawfulEqOrd.compare_eq_iff_eq]
  by_cases hv : var = v
  · subst hv
    simp only [true_and, if_true, Option.bind_some, Std.ExtTreeMap.getElem?_alter,
      Std.LawfulEqOrd.compare_eq_iff_eq]
    by_cases hk : k = l
    · subst hk
      cases index[var]? <;> simp
    · cases index[var]? <;> simp [hk]
  · simp [hv]

theorem Holds.cell (h : index.Holds p) (slot : Nat) (var : String) (k : Key) :
    RowIndex.Holds (Relation.indexCell index slot var k) fun v l i =>
      p v l i ∨ var = v ∧ k = l ∧ i = slot := by
  refine ⟨fun v l s hs => ?_, fun v l hn i hi => ?_⟩
  · rw [look_indexCell] at hs
    split at hs
    · next heq =>
      obtain ⟨rfl, rfl⟩ := heq
      obtain rfl := Option.some.inj hs
      refine ⟨⟨slot, .inr ⟨rfl, rfl, rfl⟩⟩, fun i => ?_⟩
      rw [Std.ExtTreeSet.mem_insert, Std.LawfulEqOrd.compare_eq_iff_eq]
      cases hl : index.look var k with
      | none =>
        have hnone := h.absent var k hl i
        simp [hnone, eq_comm]
      | some s =>
        have hmem := (h.present var k s hl).2 i
        simp only [Option.getD_some, hmem, true_and]
        exact ⟨fun h => h.symm.imp_right Eq.symm, fun h => h.symm.imp_left Eq.symm⟩
    · next hne =>
      obtain ⟨⟨i, hi⟩, hmem⟩ := h.present v l s hs
      refine ⟨⟨i, .inl hi⟩, fun i => (hmem i).trans ⟨.inl, ?_⟩⟩
      rintro (hi | ⟨hv, hk, -⟩)
      · exact hi
      · exact absurd ⟨hv, hk⟩ hne
  · rw [look_indexCell] at hn
    split at hn
    · cases hn
    · next hne =>
      rcases hi with hi | ⟨hv, hk, -⟩
      · exact h.absent v l hn i hi
      · exact hne ⟨hv, hk⟩

/-- A key that is not empty is added, and an empty one is not. -/
theorem Holds.binding (h : index.Holds p) (slot : Nat) (var : String) (k : Key) :
    RowIndex.Holds (if k.isEmpty then index else Relation.indexCell index slot var k) fun v l i =>
      p v l i ∨ i = slot ∧ l ≠ Key.empty ∧ var = v ∧ k = l := by
  split
  · next he =>
    have he : k = Key.empty := by simpa [Key.isEmpty] using he
    refine h.congr fun v l i => ⟨.inl, ?_⟩
    rintro (hp | ⟨-, hl, -, rfl⟩)
    · exact hp
    · exact absurd he hl
  · next he =>
    have he : k ≠ Key.empty := by simpa [Key.isEmpty] using he
    refine (h.cell slot var k).congr fun v l i => ?_
    constructor
    · rintro (hp | ⟨rfl, rfl, rfl⟩)
      · exact .inl hp
      · exact .inr ⟨rfl, he, rfl, rfl⟩
    · rintro (hp | ⟨rfl, -, rfl, rfl⟩)
      · exact .inl hp
      · exact .inr ⟨rfl, rfl, rfl⟩

theorem Holds.row (h : index.Holds p) (slot : Nat) (row : Row) (pos : Nat) (vars : List String) :
    RowIndex.Holds (Relation.indexRow slot row pos vars index) fun v k i =>
      p v k i ∨ i = slot ∧ k ≠ Key.empty ∧ ∃ j, vars[j]? = some v ∧ row.value (pos + j) = k := by
  induction vars generalizing index p pos with
  | nil => exact h.congr (by simp)
  | cons var vars ih =>
    refine (ih (h.binding slot var (row.value pos)) (pos + 1)).congr fun v k i => ?_
    constructor
    · rintro ((hp | ⟨hi, hk, rfl, hval⟩) | ⟨hi, hk, j, hj, hval⟩)
      · exact .inl hp
      · exact .inr ⟨hi, hk, 0, rfl, hval⟩
      · exact .inr ⟨hi, hk, j + 1, hj, by rwa [Nat.add_right_comm, Nat.add_assoc] at hval⟩
    · rintro (hp | ⟨hi, hk, j, hj, hval⟩)
      · exact .inl (.inl hp)
      · cases j with
        | zero => exact .inl (.inr ⟨hi, hk, Option.some.inj hj, hval⟩)
        | succ j => exact .inr ⟨hi, hk, j, hj, by rwa [Nat.add_right_comm, Nat.add_assoc]⟩

theorem Holds.rows (h : index.Holds p) (columns : List String) (slot : Nat) (rows : List Row) :
    RowIndex.Holds (Relation.indexRows columns slot rows index) fun v k i =>
      p v k i ∨ k ≠ Key.empty ∧ ∃ n row, rows[n]? = some row ∧ i = slot + n ∧
        ∃ j, columns[j]? = some v ∧ row.value j = k := by
  induction rows generalizing index p slot with
  | nil => exact h.congr (by simp)
  | cons row rows ih =>
    refine (ih (h.row slot row 0 columns) (slot + 1)).congr fun v k i => ?_
    simp only [Nat.zero_add]
    constructor
    · rintro ((hp | ⟨hi, hk, hj⟩) | ⟨hk, n, row', hn, hi, hj⟩)
      · exact .inl hp
      · exact .inr ⟨hk, 0, row, rfl, hi, hj⟩
      · exact .inr ⟨hk, n + 1, row', hn, by omega, hj⟩
    · rintro (hp | ⟨hk, n, row', hn, hi, hj⟩)
      · exact .inl (.inl hp)
      · cases n with
        | zero =>
          obtain rfl := Option.some.inj hn
          exact .inl (.inr ⟨hi, hk, hj⟩)
        | succ n => exact .inr ⟨hk, n, row', hn, by omega, hj⟩

end RowIndex

namespace Relation

/-! ## Columns -/

theorem mem_addColumn {columns : List String} {var v : String} :
    v ∈ addColumn columns var ↔ v ∈ columns ∨ v = var := by
  rw [addColumn]
  split
  · next h =>
    constructor
    · exact .inl
    · rintro (hv | rfl)
      · exact hv
      · exact h
  · simp

theorem nodup_addColumn {columns : List String} {var : String} (h : columns.Nodup) :
    (addColumn columns var).Nodup := by
  rw [addColumn]
  split
  · exact h
  · next hv => exact List.nodup_append'.mpr ⟨h, List.nodup_singleton var, by simpa using hv⟩

/-- Columns are only ever added at the end. -/
theorem addColumns_eq_append (columns vars : List String) :
    ∃ more, addColumns columns vars = columns ++ more := by
  induction vars generalizing columns with
  | nil => exact ⟨[], by simp [addColumns]⟩
  | cons var vars ih =>
    obtain ⟨more, hmore⟩ := ih (addColumn columns var)
    show ∃ more, addColumns (addColumn columns var) vars = columns ++ more
    rw [hmore]
    rw [addColumn]
    split
    · exact ⟨more, rfl⟩
    · exact ⟨var :: more, by simp⟩

theorem mem_addColumns {columns vars : List String} {v : String} :
    v ∈ addColumns columns vars ↔ v ∈ columns ∨ v ∈ vars := by
  induction vars generalizing columns with
  | nil => simp [addColumns]
  | cons var vars ih =>
    show v ∈ addColumns (addColumn columns var) vars ↔ _
    rw [ih, mem_addColumn, List.mem_cons, or_assoc]

theorem nodup_addColumns {columns vars : List String} (h : columns.Nodup) :
    (addColumns columns vars).Nodup := by
  induction vars generalizing columns with
  | nil => exact h
  | cons var vars ih => exact ih (nodup_addColumn h)

theorem length_le_addColumns (columns vars : List String) :
    columns.length ≤ (addColumns columns vars).length := by
  obtain ⟨more, hmore⟩ := addColumns_eq_append columns vars
  rw [hmore, List.length_append]
  omega

/-! ## What rows bind -/

theorem position?_of_mem {r : Relation} {var : String} (h : var ∈ r.columns) :
    r.position? var = some (r.columns.idxOf var) := by
  rw [position?, List.idxOf?_eq_some_iff]
  refine ⟨List.idxOf_lt_length_of_mem h, List.getElem_idxOf _, fun j hj => ?_⟩
  exact fun heq => absurd (List.not_of_lt_findIdx hj) (by simp [heq])

theorem valueIn_of_mem {r : Relation} {row : Row} {var : String} (h : var ∈ r.columns) :
    r.valueIn row var = row.value (r.columns.idxOf var) := by
  rw [valueIn, position?_of_mem h]

theorem valueIn_of_notMem {r : Relation} {row : Row} {var : String} (h : var ∉ r.columns) :
    r.valueIn row var = Key.empty := by
  rw [valueIn, position?, List.idxOf?_eq_none_iff.mpr h]

theorem mem_columns_of_valueIn {r : Relation} {row : Row} {var : String}
    (h : r.valueIn row var ≠ Key.empty) : var ∈ r.columns := by
  by_contra hn
  exact h (valueIn_of_notMem hn)

/-- A row binds the same in more columns. -/
theorem valueIn_widen {r r' : Relation} {row : Row} {more : List String}
    (hc : r'.columns = r.columns ++ more) (hw : row.width ≤ r.columns.length) :
    r'.valueIn row = r.valueIn row := by
  funext var
  by_cases hv : var ∈ r.columns
  · rw [valueIn_of_mem hv, valueIn_of_mem (by simp [hc, hv]), hc, List.idxOf_append_of_mem hv]
  · rw [valueIn_of_notMem hv]
    by_cases hv' : var ∈ r'.columns
    · rw [valueIn_of_mem hv', hc, List.idxOf_append_of_notMem hv]
      exact Row.value_of_width_le (by omega)
    · exact valueIn_of_notMem hv'

/-- The column of a variable is settled by the key it holds. -/
theorem exists_column_iff {r : Relation} {row : Row} {var : String} {k : Key}
    (hnd : r.columns.Nodup) (hk : k ≠ Key.empty) :
    (∃ j, r.columns[j]? = some var ∧ row.value j = k) ↔ r.valueIn row var = k := by
  constructor
  · rintro ⟨j, hj, hval⟩
    obtain ⟨hlt, rfl⟩ := List.getElem?_eq_some_iff.mp hj
    rw [valueIn_of_mem (List.getElem_mem hlt), hnd.idxOf_getElem j hlt, hval]
  · intro hval
    have hne : r.valueIn row var ≠ Key.empty := hval ▸ hk
    have hv : var ∈ r.columns := mem_columns_of_valueIn hne
    refine ⟨r.columns.idxOf var, ?_, by rw [← valueIn_of_mem hv, hval]⟩
    rw [List.getElem?_eq_getElem (List.idxOf_lt_length_of_mem hv), List.getElem_idxOf]

/-- The assignments that rows stand for.  A variable that a row does not bind has
the empty key. -/
def Has (r : Relation) (f : String → Key) : Prop := ∃ row ∈ r.rows, r.valueIn row = f

/-! ## Relations with their index -/

/-- The index of a relation is the index of its rows. -/
structure Indexed (r : Relation) : Prop where
  /-- No variable has two columns. -/
  columns_nodup : r.columns.Nodup
  /-- No row is wider than the columns. -/
  fits : ∀ row ∈ r.rows, row.width ≤ r.columns.length
  /-- The index has the bindings of the rows. -/
  index : r.index.Holds fun var k i =>
    k ≠ Key.empty ∧ ∃ row, r.rows[i]? = some row ∧ r.valueIn row var = k

theorem indexed_new (vars : List String) : (Relation.new vars).Indexed := by
  refine ⟨nodup_addColumns List.nodup_nil, by simp [Relation.new], ?_⟩
  exact RowIndex.holds_empty.congr (by simp [Relation.new])

theorem Indexed.clear {r : Relation} (h : r.Indexed) : r.clear.Indexed := by
  refine ⟨h.columns_nodup, by simp [Relation.clear], ?_⟩
  exact RowIndex.holds_empty.congr (by simp [Relation.clear])

theorem valueIn_unit (r : Relation) (var : String) : r.valueIn Row.unit var = Key.empty := by
  rw [valueIn]
  split <;> rfl

theorem Indexed.addUnit {r : Relation} (h : r.Indexed) : r.addUnit.Indexed := by
  refine ⟨h.columns_nodup, ?_, ?_⟩
  · intro row hrow
    rcases Array.mem_push.mp hrow with hrow | rfl
    · exact h.fits row hrow
    · exact Nat.zero_le _
  · refine h.index.congr fun var k i => and_congr_right fun hk => ?_
    show (∃ row, r.rows[i]? = some row ∧ r.valueIn row var = k) ↔
      ∃ row, (r.rows.push Row.unit)[i]? = some row ∧ r.valueIn row var = k
    constructor
    · rintro ⟨row, hrow, hval⟩
      obtain ⟨hlt, rfl⟩ := Array.getElem?_eq_some_iff.mp hrow
      refine ⟨r.rows[i], ?_, hval⟩
      rw [Array.getElem?_push_lt hlt]
    · rintro ⟨row, hrow, hval⟩
      rw [Array.getElem?_push] at hrow
      split at hrow
      · obtain rfl := Option.some.inj hrow
        exact absurd (hval ▸ valueIn_unit r var) hk
      · exact ⟨row, hrow, hval⟩

namespace Indexed

variable {r : Relation}

theorem binds_iff (h : r.Indexed) {var : String} :
    r.binds var = true ↔ ∃ row ∈ r.rows, r.valueIn row var ≠ Key.empty := by
  have hlook : r.binds var = true ↔ ∃ k, (r.index.look var k).isSome := by
    simp only [binds, RowIndex.look]
    cases r.index[var]? with
    | none => simp
    | some m =>
      simp [Std.ExtTreeMap.isEmpty_eq_false_iff, Std.ExtTreeMap.eq_empty_iff_forall_not_mem]
  rw [hlook]
  constructor
  · rintro ⟨k, hk⟩
    obtain ⟨i, hne, row, hrow, hval⟩ := h.index.isSome_look.mp hk
    exact ⟨row, Array.mem_of_getElem? hrow, hval ▸ hne⟩
  · rintro ⟨row, hrow, hne⟩
    obtain ⟨i, hi⟩ := Array.mem_iff_getElem?.mp hrow
    exact ⟨_, h.index.isSome_look.mpr ⟨i, hne, row, hi, rfl⟩⟩

theorem mem_valuesFor (h : r.Indexed) {var : String} {k : Key} :
    k ∈ r.valuesFor var ↔ k ≠ Key.empty ∧ ∃ row ∈ r.rows, r.valueIn row var = k := by
  have hlook : k ∈ r.valuesFor var ↔ (r.index.look var k).isSome := by
    rw [valuesFor, RowIndex.look]
    cases r.index[var]? with
    | none => simp
    | some m =>
      rw [Option.bind_some, Keys.mem_ofList, Std.ExtTreeMap.mem_keys,
        Std.ExtTreeMap.isSome_getElem?_iff_mem]
  rw [hlook, h.index.isSome_look]
  constructor
  · rintro ⟨i, hne, row, hrow, hval⟩
    exact ⟨hne, row, Array.mem_of_getElem? hrow, hval⟩
  · rintro ⟨hne, row, hrow, hval⟩
    obtain ⟨i, hi⟩ := Array.mem_iff_getElem?.mp hrow
    exact ⟨i, hne, row, hi, hval⟩

/-- Row `i` carries all of some bindings. -/
def RowCarries (r : Relation) (tuple : List (String × Key)) (i : Nat) : Prop :=
  ∃ row, r.rows[i]? = some row ∧ ∀ p ∈ tuple, p.2 ≠ Key.empty ∧ r.valueIn row p.1 = p.2

/-- The slots of several bindings are those of the rows that carry them. -/
theorem common?_spec (h : r.Indexed) {tuple : List (String × Key)} (hne : tuple ≠ []) :
    (∀ s, r.common? tuple = some s → ∀ i, i ∈ s ↔ RowCarries r tuple i) ∧
      (r.common? tuple = none → ∀ i, ¬ RowCarries r tuple i) := by
  have hone : ∀ var k i, (k ≠ Key.empty ∧ ∃ row, r.rows[i]? = some row ∧ r.valueIn row var = k)
      ↔ RowCarries r [(var, k)] i := by
    intro var k i
    simp only [RowCarries, List.mem_singleton, forall_eq]
    constructor
    · rintro ⟨hk, row, hrow, hval⟩
      exact ⟨row, hrow, hk, hval⟩
    · rintro ⟨row, hrow, hk, hval⟩
      exact ⟨hk, row, hrow, hval⟩
  have hcons : ∀ var k rest i, RowCarries r ((var, k) :: rest) i ↔
      RowCarries r [(var, k)] i ∧ RowCarries r rest i := by
    intro var k rest i
    simp only [RowCarries, List.mem_cons, List.not_mem_nil, or_false, forall_eq_or_imp, forall_eq]
    constructor
    · rintro ⟨row, hrow, hfst, hrest⟩
      exact ⟨⟨row, hrow, hfst⟩, row, hrow, hrest⟩
    · rintro ⟨⟨row, hrow, hfst⟩, row', hrow', hrest⟩
      obtain rfl : row = row' := Option.some.inj (hrow.symm.trans hrow')
      exact ⟨row, hrow, hfst, hrest⟩
  fun_induction common? r tuple with
  | case1 => exact absurd rfl hne
  | case2 var k =>
    refine ⟨fun s hs i => ?_, fun hn i hi => ?_⟩
    · rw [← hone]
      exact (h.index.present var k s hs).2 i
    · exact h.index.absent var k hn i ((hone var k i).mpr hi)
  | case3 var k rest hrest s t ht hs ih =>
    refine ⟨fun u hu i => ?_, nofun⟩
    obtain rfl := Option.some.inj hu
    rw [Std.ExtTreeSet.mem_inter_iff, hcons, ← hone, (h.index.present var k s hs).2 i,
      (ih (by rintro rfl; exact hrest rfl)).1 t ht i]
  | case4 var k rest hrest hnone ih =>
    refine ⟨nofun, fun _ i hi => ?_⟩
    obtain ⟨hfst, hrest'⟩ := (hcons var k rest i).mp hi
    have ih := ih (by rintro rfl; exact hrest rfl)
    cases hs : r.slots? var k with
    | none => exact h.index.absent var k hs i ((hone var k i).mpr hfst)
    | some s =>
      cases ht : r.common? rest with
      | none => exact ih.2 ht i hrest'
      | some t => exact hnone s t hs ht

theorem carries_iff (h : r.Indexed) {tuple : List (String × Key)} (hne : tuple ≠ []) :
    r.carries tuple = true ↔
      ∃ row ∈ r.rows, ∀ p ∈ tuple, p.2 ≠ Key.empty ∧ r.valueIn row p.1 = p.2 := by
  have hrow : (∃ i, RowCarries r tuple i) ↔
      ∃ row ∈ r.rows, ∀ p ∈ tuple, p.2 ≠ Key.empty ∧ r.valueIn row p.1 = p.2 := by
    constructor
    · rintro ⟨i, row, hrow, hall⟩
      exact ⟨row, Array.mem_of_getElem? hrow, hall⟩
    · rintro ⟨row, hrow, hall⟩
      obtain ⟨i, hi⟩ := Array.mem_iff_getElem?.mp hrow
      exact ⟨i, row, hi, hall⟩
  obtain ⟨hsome, hnone⟩ := h.common?_spec hne
  rw [← hrow]
  rw [carries]
  cases hc : r.common? tuple with
  | none => simpa using hnone hc
  | some s =>
    simp only [Bool.not_eq_true', Std.ExtTreeSet.isEmpty_eq_false_iff,
      Std.ExtTreeSet.eq_empty_iff_forall_not_mem, not_forall, not_not]
    exact exists_congr fun i => hsome s hc i

end Indexed

end Relation

end TripleStore
