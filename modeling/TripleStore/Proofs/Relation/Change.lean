import TripleStore.Proofs.Relation.Join
import TripleStore.Relation.Change

/-!
# What a change does to bindings

The rows of a relation stand for assignments, and a change that succeeds joins
them with the assignments it allows.  A relation without rows stands for the
assignment that binds nothing, as it is the start of a query.

Both sides have to be even: all assignments of one side bind the same variables.
Then the variables on which rows are joined are the ones that both sides bind.
-/

namespace TripleStore

/-! ## Assignments -/

/-- An assignment binds exactly some variables. -/
def Binds (f : String → Key) (vars : List String) : Prop := ∀ v, f v ≠ Key.empty ↔ v ∈ vars

/-- Two assignments give the same key to a variable that both bind. -/
def Agree (f g : String → Key) : Prop :=
  ∀ v, f v ≠ Key.empty → g v ≠ Key.empty → f v = g v

/-- The assignment that binds nothing. -/
def unbound : String → Key := fun _ => Key.empty

theorem binds_nil_iff {f : String → Key} : Binds f [] ↔ f = unbound := by
  constructor
  · intro h
    funext v
    exact not_not.mp (mt (h v).mp List.not_mem_nil)
  · rintro rfl v
    simp [unbound]

theorem Binds.eq {f g : String → Key} {vars : List String} (hf : Binds f vars) (hg : Binds g vars)
    (h : vars.map f = vars.map g) : f = g := by
  funext v
  by_cases hv : v ∈ vars
  · exact List.map_inj_left.mp h v hv
  · have hfv := mt (hf v).mp hv
    have hgv := mt (hg v).mp hv
    rw [not_not] at hfv hgv
    rw [hfv, hgv]

theorem agree_unbound {f : String → Key} : Agree f unbound := fun _ _ h => absurd rfl h

theorem overlay_of_ne_empty (f : String → Key) {g : String → Key} {v : String}
    (h : g v ≠ Key.empty) : overlay f g v = g v := if_neg h

/-- An overlay keeps what is bound below, if both agree. -/
theorem overlay_of_agree {f g : String → Key} {v : String} (h : Agree f g) (hv : f v ≠ Key.empty) :
    overlay f g v = f v := by
  rw [overlay]
  split
  · rfl
  · next hne => exact (h v hv hne).symm

theorem overlay_unbound (f : String → Key) : overlay f unbound = f := by
  funext v
  simp [overlay, unbound]

namespace Relation

/-! ## Changes -/

/-- The tuples of a change are as wide as its variables are many. -/
def Change.Proper : Change → Prop
  | .check _ => True
  | .keys _ _ => True
  | .tuples names ts => names ≠ [] ∧ ∀ t ∈ ts, t.length = names.length

/-- The variables that a change binds. -/
def Change.vars : Change → List String
  | .check _ => []
  | .keys var _ => [var]
  | .tuples names _ => names

/-- The assignments that a change allows. -/
def Change.Allows : Change → (String → Key) → Prop
  | .check holds, f => holds = true ∧ f = unbound
  | .keys var ks, f => Binds f [var] ∧ f var ∈ ks
  | .tuples names ts, f => Binds f names ∧ names.map f ∈ ts

/-- What a change allows binds its variables. -/
theorem Change.Allows.binds {change : Change} {f : String → Key} (h : change.Allows f) :
    Binds f change.vars := by
  cases change with
  | check holds => exact binds_nil_iff.mpr h.2
  | keys var ks => exact h.1
  | tuples names ts => exact h.1

variable {r r' found : Relation} {vars : List String}

/-! ## Insertion -/

theorem zip_map_self (vars : List String) (f : String → Key) :
    vars.zip (vars.map f) = vars.map fun v => (v, f v) := by
  induction vars with
  | nil => rfl
  | cons v vars ih => rw [List.map_cons, List.zip_cons_cons, ih, List.map_cons]

theorem map_fst_map (vars : List String) (f : String → Key) :
    (vars.map fun v => (v, f v)).map Prod.fst = vars := by
  rw [List.map_map]
  exact List.map_id vars

/-- A tuple that gives each variable one key is the graph of an assignment. -/
theorem exists_assignment {keys : List Key} (hlen : keys.length = vars.length)
    (hfull : ∀ p ∈ vars.zip keys, p.2 ≠ Key.empty) (hcons : consistent (vars.zip keys) = true) :
    ∃ f, Binds f vars ∧ keys = vars.map f := by
  induction vars generalizing keys with
  | nil => exact ⟨unbound, binds_nil_iff.mpr rfl, List.eq_nil_of_length_eq_zero hlen⟩
  | cons v vars ih =>
    obtain ⟨k, keys, rfl⟩ : ∃ k ks, keys = k :: ks := by
      cases keys with
      | nil => cases hlen
      | cons k ks => exact ⟨k, ks, rfl⟩
    have hlen : keys.length = vars.length := Nat.succ.inj hlen
    simp only [List.zip_cons_cons, List.forall_mem_cons, consistent, Bool.and_eq_true,
      List.all_eq_true, Bool.or_eq_true, decide_eq_true_eq] at hfull hcons
    obtain ⟨f, hf, rfl⟩ := ih hlen hfull.2 hcons.2
    -- a variable that occurs again has the same key there
    have hagain : v ∈ vars → f v = k := by
      intro hv
      have hmem : (v, f v) ∈ vars.zip (vars.map f) := by
        rw [zip_map_self]
        exact List.mem_map.mpr ⟨v, hv, rfl⟩
      exact (hcons.1 _ hmem).resolve_left (by simp)
    refine ⟨fun w => if w = v then k else f w, fun w => ?_, ?_⟩
    · by_cases hw : w = v
      · simp [hw, hfull.1]
      · simp [hw, hf w]
    · have hrest : vars.map (fun w => if w = v then k else f w) = vars.map f := by
        refine List.map_congr_left fun w hw => ?_
        split
        · next heq => exact (heq ▸ (hagain (heq ▸ hw))).symm
        · rfl
      simp [hrest]

theorem consistent_map (vars : List String) (f : String → Key) :
    consistent (vars.map fun v => (v, f v)) = true := by
  induction vars with
  | nil => rfl
  | cons v vars ih =>
    simp only [List.map_cons, consistent, ih, Bool.and_true, List.all_eq_true, List.mem_map]
    rintro _ ⟨w, -, rfl⟩
    by_cases hw : w = v
    · simp [hw]
    · simp [hw]

theorem value_foldl_set {columns : List String} {f : String → Key} {row : Row} {v : String}
    (hsub : ∀ w ∈ vars, w ∈ columns) (hf : ∀ w ∈ vars, f w ≠ Key.empty) :
    ((vars.map fun w => (w, f w)).foldl (fun row p => row.set (columns.idxOf p.1) p.2) row).value
      (columns.idxOf v) = if v ∈ vars then f v else row.value (columns.idxOf v) := by
  induction vars generalizing row with
  | nil => simp
  | cons w vars ih =>
    rw [List.map_cons, List.foldl_cons, ih (fun w h => hsub w (List.mem_cons_of_mem _ h))
      fun w h => hf w (List.mem_cons_of_mem _ h)]
    by_cases hv : v ∈ vars
    · simp [hv]
    · rw [if_neg hv, Row.value_set _ _ _ _ (by simpa [Key.isEmpty] using hf w List.mem_cons_self)]
      by_cases hw : w = v
      · simp [hw]
      · have hidx := mt (List.idxOf_inj (hsub w List.mem_cons_self)).mp hw
        simp [hidx, hv, Ne.symm hw]

theorem width_foldl_set_le {columns : List String} {tuple : List (String × Key)} {row : Row}
    (hsub : ∀ p ∈ tuple, p.1 ∈ columns) (hw : row.width ≤ columns.length) :
    (tuple.foldl (fun row p => row.set (columns.idxOf p.1) p.2) row).width ≤ columns.length := by
  induction tuple generalizing row with
  | nil => exact hw
  | cons p tuple ih =>
    exact ih (fun p h => hsub p (List.mem_cons_of_mem _ h))
      (Row.width_set_le hw (List.idxOf_lt_length_of_mem (hsub p List.mem_cons_self)))

/-- The row that is made for an assignment says what the assignment does. -/
theorem valueIn_rowOf {r' : Relation} {columns : List String} {f : String → Key} (hf : Binds f vars)
    (hc : r'.columns = addColumns columns vars) :
    r'.valueIn (rowOf (addColumns columns vars) (vars.map fun v => (v, f v))) = f := by
  have hsub : ∀ w ∈ vars, w ∈ addColumns columns vars := fun w hw => mem_addColumns.mpr (.inr hw)
  funext v
  by_cases hv : v ∈ r'.columns
  · rw [valueIn_of_mem hv, rowOf, hc, value_foldl_set hsub fun w hw => (hf w).mpr hw]
    split
    · rfl
    · next hvs => exact (not_not.mp (mt (hf v).mp hvs)).symm
  · rw [valueIn_of_notMem hv]
    by_contra hne
    exact hv (hc ▸ hsub v ((hf v).mp (Ne.symm hne)))

theorem width_rowOf_le (columns : List String) (tuple : List (String × Key)) :
    (rowOf (addColumns columns (tuple.map (·.1))) tuple).width ≤
      (addColumns columns (tuple.map (·.1))).length := by
  refine width_foldl_set_le (fun p hp => ?_) (Nat.zero_le _)
  exact mem_addColumns.mpr (.inr (List.mem_map_of_mem hp))

/-- Further columns do not change what the rows that were there say. -/
theorem valueIn_addColumns {r' : Relation} {old : Row} (h : r.Indexed)
    (hc : r'.columns = addColumns r.columns vars) (hold : old ∈ r.rows) :
    r'.valueIn old = r.valueIn old := by
  obtain ⟨more, hmore⟩ := addColumns_eq_append r.columns vars
  exact valueIn_widen (hc.trans hmore) (h.fits old hold)

theorem columns_append {f : String → Key} :
    (r.append (vars.map fun v => (v, f v))).columns = addColumns r.columns vars := by
  rw [append, map_fst_map]

theorem rows_append {f : String → Key} : (r.append (vars.map fun v => (v, f v))).rows =
    r.rows.push (rowOf (addColumns r.columns vars) (vars.map fun v => (v, f v))) := by
  rw [append, map_fst_map]

/-- The row that is appended binds the tuple. -/
theorem has_append {f : String → Key} (h : r.Indexed) (hf : Binds f vars) {g : String → Key} :
    (r.append (vars.map fun v => (v, f v))).Has g ↔ r.Has g ∨ g = f := by
  constructor
  · rintro ⟨old, hmem, rfl⟩
    rw [rows_append] at hmem
    rcases Array.mem_push.mp hmem with hmem | rfl
    · exact .inl ⟨old, hmem, (valueIn_addColumns h columns_append hmem).symm⟩
    · exact .inr (valueIn_rowOf hf columns_append)
  · rintro (⟨old, hmem, rfl⟩ | rfl)
    · refine ⟨old, ?_, valueIn_addColumns h columns_append hmem⟩
      rw [rows_append]
      exact Array.mem_push.mpr (.inl hmem)
    · refine ⟨_, ?_, valueIn_rowOf hf columns_append⟩
      rw [rows_append]
      exact Array.mem_push.mpr (.inr rfl)

/-- The row that is appended is indexed. -/
theorem indexed_append (h : r.Indexed) (tuple : List (String × Key)) :
    (r.append tuple).Indexed := by
  obtain ⟨vars, hvars⟩ : ∃ vars, vars = tuple.map (·.1) := ⟨_, rfl⟩
  have hnd : (addColumns r.columns vars).Nodup := nodup_addColumns h.columns_nodup
  obtain ⟨row, hrow⟩ : ∃ row, row = rowOf (addColumns r.columns vars) tuple := ⟨_, rfl⟩
  have happend : r.append tuple = ⟨addColumns r.columns vars, r.rows.push row,
      indexRow r.size row 0 (addColumns r.columns vars) r.index, r.limit⟩ := by
    rw [append, hrow, hvars]
  rw [happend]
  refine ⟨hnd, ?_, ?_⟩
  · intro old hmem
    rcases Array.mem_push.mp hmem with hmem | rfl
    · exact (h.fits old hmem).trans (length_le_addColumns _ _)
    · rw [hrow, hvars]
      exact width_rowOf_le r.columns tuple
  · refine (h.index.row r.size row 0 (addColumns r.columns vars)).congr fun v k i => ?_
    simp only [Nat.zero_add]
    constructor
    · rintro (⟨hk, old, hi, hval⟩ | ⟨rfl, hk, hj⟩)
      · obtain ⟨hlt, rfl⟩ := Array.getElem?_eq_some_iff.mp hi
        refine ⟨hk, _, Array.getElem?_push_lt hlt, ?_⟩
        rwa [valueIn_addColumns h rfl (Array.getElem_mem hlt)]
      · refine ⟨hk, row, Array.getElem?_push_size, ?_⟩
        exact (exists_column_iff (r := ⟨_, r.rows.push row, r.index, r.limit⟩) hnd hk).mp hj
    · rintro ⟨hk, old, hi, hval⟩
      rw [Array.getElem?_push] at hi
      split at hi
      · next heq =>
        obtain rfl := Option.some.inj hi
        exact .inr ⟨heq, hk,
          (exists_column_iff (r := ⟨_, r.rows.push row, r.index, r.limit⟩) hnd hk).mpr hval⟩
      · rw [valueIn_addColumns h rfl (Array.mem_of_getElem? hi)] at hval
        exact .inl ⟨hk, old, hi, hval⟩

/-- An insertion adds the assignment that the tuple is the graph of, if it is one. -/
theorem insert_spec {keys : List Key} (h : r.Indexed) (heven : ∀ g, r.Has g → Binds g vars)
    (hne : vars ≠ []) (hlen : keys.length = vars.length)
    (hins : r.insert (vars.zip keys) = .ok r') :
    r'.Indexed ∧ (∀ v, v ∈ r'.columns → v ∈ r.columns ∨ v ∈ vars) ∧
      ∀ g, r'.Has g ↔ r.Has g ∨ Binds g vars ∧ vars.map g = keys := by
  have hzip : vars.zip keys ≠ [] := by
    intro hnil
    rcases List.zip_eq_nil_iff.mp hnil with rfl | rfl
    · exact hne rfl
    · exact hne (List.eq_nil_of_length_eq_zero hlen.symm)
  rw [Relation.insert] at hins
  split at hins
  · next hskip =>
    obtain rfl := Except.ok.inj hins
    refine ⟨h, fun v hv => .inl hv, fun g => ⟨.inl, ?_⟩⟩
    rintro (hg | ⟨hg, rfl⟩)
    · exact hg
    · -- the tuple is full and consistent, so some row carries it already
      rw [zip_map_self] at hskip hzip
      simp only [skips, Bool.or_eq_true, consistent_map, Bool.not_true, Bool.false_eq_true,
        or_false] at hskip
      rcases hskip with hany | hcar
      · obtain ⟨p, hp, he⟩ := List.any_eq_true.mp hany
        obtain ⟨v, hv, rfl⟩ := List.mem_map.mp hp
        exact absurd (by simpa [Key.isEmpty] using he) ((hg v).mpr hv)
      · obtain ⟨row, hrow, hall⟩ := (h.carries_iff hzip).mp hcar
        refine ⟨row, hrow, ?_⟩
        have hrow : r.Has (r.valueIn row) := ⟨row, hrow, rfl⟩
        refine (heven _ hrow).eq hg (List.map_congr_left fun v hv => ?_)
        exact (hall (v, g v) (List.mem_map.mpr ⟨v, hv, rfl⟩)).2
  · next hskip =>
    split at hins
    · cases hins
    · obtain rfl := Except.ok.inj hins
      simp only [skips, Bool.or_eq_true, not_or, Bool.not_eq_true', Bool.not_eq_true,
        Bool.not_eq_false, List.any_eq_false] at hskip
      obtain ⟨⟨hfull, hcons⟩, -⟩ := hskip
      obtain ⟨f, hf, rfl⟩ := exists_assignment hlen
        (fun p hp => by simpa [Key.isEmpty] using hfull p hp) hcons
      rw [zip_map_self]
      refine ⟨indexed_append h _, fun v hv => ?_, fun g => ?_⟩
      · rwa [columns_append, mem_addColumns] at hv
      · rw [has_append h hf]
        refine or_congr_right ⟨?_, fun hg => hg.1.eq hf hg.2⟩
        rintro rfl
        exact ⟨hf, rfl⟩

theorem insertAll_spec {tuples : List (List Key)} (h : r.Indexed)
    (heven : ∀ g, r.Has g → Binds g vars) (hne : vars ≠ [])
    (hlen : ∀ keys ∈ tuples, keys.length = vars.length)
    (hins : r.insertAll vars tuples = (.ok (), r')) :
    r'.Indexed ∧ (∀ v, v ∈ r'.columns → v ∈ r.columns ∨ v ∈ vars) ∧
      ∀ g, r'.Has g ↔ r.Has g ∨ Binds g vars ∧ vars.map g ∈ tuples := by
  induction tuples generalizing r with
  | nil =>
    obtain rfl := (Prod.mk.inj hins).2
    exact ⟨h, fun v hv => .inl hv, by simp⟩
  | cons keys rest ih =>
    rw [insertAll] at hins
    split at hins
    · next r₁ hone =>
      obtain ⟨h₁, hcols, hhas⟩ := insert_spec h heven hne (hlen keys List.mem_cons_self) hone
      obtain ⟨h', hcols', hhas'⟩ := ih h₁ (fun g hg => ((hhas g).mp hg).elim (heven g) And.left)
        (fun keys hk => hlen keys (List.mem_cons_of_mem _ hk)) hins
      refine ⟨h', fun v hv => ?_, fun g => ?_⟩
      · rcases hcols' v hv with hv | hv
        · exact hcols v hv
        · exact .inr hv
      · rw [hhas', hhas, List.mem_cons, or_assoc, and_or_left]
    · cases hins

/-! ## Combination -/

/-- The assignments that rows allow.  Without rows nothing is bound yet. -/
def Allows (r : Relation) (f : String → Key) : Prop :=
  if r.isEmpty then f = unbound else r.Has f

/-- All assignments bind the same variables. -/
def Even (r : Relation) (vars : List String) : Prop := ∀ f, r.Allows f → Binds f vars

theorem not_has_of_isEmpty (h : r.isEmpty = true) {f : String → Key} : ¬ r.Has f := by
  rintro ⟨row, hrow, -⟩
  have hnil : r.rows = #[] := by simpa [isEmpty] using h
  simp [hnil] at hrow

theorem allows_of_has {f : String → Key} (h : r.Has f) : r.Allows f := by
  rw [Allows]
  split
  · next he => exact absurd h (not_has_of_isEmpty he)
  · exact h

theorem allows_of_isEmpty (h : r.isEmpty = true) {f : String → Key} :
    r.Allows f ↔ f = unbound := by
  rw [Allows, if_pos h]

theorem allows_of_not_isEmpty (h : r.isEmpty = false) {f : String → Key} :
    r.Allows f ↔ r.Has f := by
  rw [Allows, if_neg (by simp [h])]

theorem exists_allowed (r : Relation) : ∃ f, r.Allows f := by
  cases he : r.isEmpty with
  | true => exact ⟨unbound, (allows_of_isEmpty he).mpr rfl⟩
  | false =>
    have hne : 0 < r.rows.size := by
      rw [isEmpty, Array.isEmpty_eq_false_iff] at he
      exact Array.size_pos_iff.mpr he
    exact ⟨_, allows_of_has ⟨r.rows[0], Array.getElem_mem hne, rfl⟩⟩

/-- The key of a row is among the values of its variable. -/
theorem Even.mem_valuesFor (heven : r.Even vars) (h : r.Indexed) {a : String → Key} {v : String}
    (ha : r.Allows a) (hv : v ∈ vars) : a v ∈ r.valuesFor v := by
  have hne := (heven a ha v).mpr hv
  have hhas : r.Has a := by
    rw [Allows] at ha
    split at ha
    · subst ha
      exact absurd rfl hne
    · exact ha
  obtain ⟨row, hrow, rfl⟩ := hhas
  exact h.mem_valuesFor.mpr ⟨hne, row, hrow, rfl⟩

/-- Near a row, a variable that rows bind has one of their values. -/
theorem Even.near (heven : r.Even vars) (h : r.Indexed) {a b : String → Key} {v : String}
    (ha : r.Allows a) (hab : Agree a b) (hv : v ∈ vars) (hne : b v ≠ Key.empty) :
    b v ∈ r.valuesFor v := by
  rw [← hab v ((heven a ha v).mpr hv) hne]
  exact heven.mem_valuesFor h ha hv

theorem Even.binds_iff (heven : r.Even vars) (h : r.Indexed) {v : String} :
    r.binds v = true ↔ v ∈ vars := by
  constructor
  · intro hv
    obtain ⟨row, hrow, hne⟩ := h.binds_iff.mp hv
    exact (heven _ (allows_of_has ⟨row, hrow, rfl⟩) v).mp hne
  · intro hv
    obtain ⟨a, ha⟩ := r.exists_allowed
    obtain ⟨hne, row, hrow, hval⟩ := h.mem_valuesFor.mp (heven.mem_valuesFor h ha hv)
    exact h.binds_iff.mpr ⟨row, hrow, hval ▸ hne⟩

/-- The rows of one more, empty row. -/
theorem has_unit (r : Relation) {f : String → Key} : r.clear.addUnit.Has f ↔ f = unbound := by
  have hunit : r.clear.addUnit.valueIn Row.unit = unbound := funext fun v => valueIn_unit _ v
  simp [Has, Relation.addUnit, Relation.clear] at hunit ⊢
  rw [hunit]
  exact eq_comm

/-- The rows that a combination joins.  Without rows it is one that binds nothing. -/
def base (r : Relation) : Relation := if r.isEmpty then r.clear.addUnit else r

theorem Indexed.base (h : r.Indexed) : r.base.Indexed := by
  rw [Relation.base]
  split
  · exact h.clear.addUnit
  · exact h

/-- They stand for the assignments that the relation allows. -/
theorem has_base (r : Relation) {f : String → Key} : r.base.Has f ↔ r.Allows f := by
  rw [base, Allows]
  split
  · exact has_unit r
  · exact Iff.rfl

/-- Columns and the limit are those of the relation. -/
theorem base_columns_limit (r : Relation) :
    r.base.columns = r.columns ∧ r.base.limit = r.limit := by
  rw [base]
  split
  · exact ⟨rfl, rfl⟩
  · exact ⟨rfl, rfl⟩

/-- A combination is a join. -/
theorem combine_eq (h : r.Indexed) (found : Relation) :
    r.combine found = r.base.join found (found.columns.filter r.binds) := by
  unfold combine base
  simp only
  cases he : r.isEmpty with
  | true =>
    have hnone : found.columns.filter r.binds = [] := by
      refine List.filter_eq_nil_iff.mpr fun v _ hb => ?_
      obtain ⟨row, hrow, -⟩ := h.binds_iff.mp hb
      exact not_has_of_isEmpty he ⟨row, hrow, rfl⟩
    rw [hnone]
    rfl
  | false =>
    rw [Bool.and_false]
    rfl

/-- Rows of both sides agree if they do on the variables that the rows are joined on. -/
theorem agree_iff {vars' : List String} {a b : String → Key} (h : r.Indexed) (heven : r.Even vars)
    (hcols : ∀ v, v ∈ found.columns → v ∈ vars') (heven' : ∀ g, found.Has g → Binds g vars')
    (ha : r.Allows a) (hb : found.Has b) :
    (∀ v ∈ found.columns.filter r.binds, a v ≠ Key.empty ∧ a v = b v) ↔ Agree a b := by
  have hbinds := heven a ha
  constructor
  · intro hagree v hav hbv
    refine (hagree v (List.mem_filter.mpr ⟨?_, ?_⟩)).2
    · obtain ⟨row, -, rfl⟩ := hb
      exact mem_columns_of_valueIn hbv
    · rw [Allows] at ha
      split at ha
      · subst ha
        exact absurd rfl hav
      · obtain ⟨row, hrow, rfl⟩ := ha
        exact h.binds_iff.mpr ⟨row, hrow, hav⟩
  · intro hagree v hv
    obtain ⟨hcol, hbound⟩ := List.mem_filter.mp hv
    obtain ⟨row, hrow, hval⟩ := h.binds_iff.mp hbound
    -- all rows bind what one row binds
    have hav : a v ≠ Key.empty :=
      (hbinds v).mpr ((heven _ (allows_of_has ⟨row, hrow, rfl⟩) v).mp hval)
    exact ⟨hav, hagree v hav ((heven' b hb v).mpr (hcols v hcol))⟩

/-- A combination joins the assignments of both sides. -/
theorem combine_spec {vars' : List String} (h : r.Indexed) (hf : found.Indexed)
    (heven : r.Even vars) (hcols : ∀ v, v ∈ found.columns → v ∈ vars')
    (heven' : ∀ g, found.Has g → Binds g vars') (hc : r.combine found = (.ok (), r')) :
    r'.Indexed ∧ ∀ f, r'.Has f ↔
      ∃ a b, r.Allows a ∧ found.Has b ∧ Agree a b ∧ f = overlay a b := by
  rw [combine_eq h] at hc
  have hj := join_spec h.base hf hc
  refine ⟨hj.indexed, fun f => ?_⟩
  rw [hj.has_iff h.base hf]
  refine exists_congr fun a => exists_congr fun b => ?_
  rw [has_base]
  refine and_congr_right fun ha => and_congr_right fun hb => and_congr_left fun _ => ?_
  exact agree_iff h heven hcols heven' ha hb

/-! ## Application -/

theorem bindTuples_spec {tuples : List (List Key)} {vars' : List String} (h : r.Indexed)
    (heven : r.Even vars') (hne : vars ≠ []) (hlen : ∀ keys ∈ tuples, keys.length = vars.length)
    (hc : r.bindTuples vars tuples = (.ok (), r')) :
    r'.Indexed ∧ ∀ f, r'.Has f ↔
      ∃ a b, r.Allows a ∧ (Binds b vars ∧ vars.map b ∈ tuples) ∧ Agree a b ∧ f = overlay a b := by
  rw [bindTuples] at hc
  split at hc
  · next u found hfound =>
    have hnew : ∀ g, ¬ (Relation.new vars).Has g := fun g => not_has_of_isEmpty rfl
    obtain ⟨hfi, hcols, hhas⟩ := insertAll_spec (indexed_new vars)
      (fun g hg => absurd hg (hnew g)) hne hlen hfound
    have hhas : ∀ g, found.Has g ↔ Binds g vars ∧ vars.map g ∈ tuples :=
      fun g => (hhas g).trans (or_iff_right (hnew g))
    have hcols : ∀ v, v ∈ found.columns → v ∈ vars := by
      intro v hv
      rcases hcols v hv with hv | hv
      · exact (mem_addColumns.mp hv).resolve_left List.not_mem_nil
      · exact hv
    obtain ⟨hi, hr'⟩ := combine_spec h hfi heven hcols (fun g hg => ((hhas g).mp hg).1) hc
    exact ⟨hi, fun f => by simp only [hr', hhas]⟩
  · cases hc

/-- The tuples of keys for one variable have one key. -/
theorem length_of_mem_singletons (var : String) (keys : Keys) :
    ∀ tuple ∈ keys.toList.map (fun k => [k]), tuple.length = [var].length := by
  intro tuple ht
  obtain ⟨k, -, rfl⟩ := List.mem_map.mp ht
  rfl

/-- A change joins the rows with the assignments it allows. -/
theorem apply_spec {change : Change} (h : r.Indexed) (heven : r.Even vars) (hp : change.Proper)
    (hc : r.apply change = (.ok (), r')) :
    r'.Indexed ∧ ∀ f, r'.Has f ↔
      ∃ a b, r.Allows a ∧ change.Allows b ∧ Agree a b ∧ f = overlay a b := by
  cases change with
  | check holds =>
    obtain rfl : r.check holds = r' := (Prod.mk.inj hc).2
    have hjoin : ∀ f, (∃ a b, r.Allows a ∧ (Change.check holds).Allows b ∧ Agree a b ∧
        f = overlay a b) ↔ holds = true ∧ r.Allows f := by
      intro f
      constructor
      · rintro ⟨a, b, ha, ⟨hh, rfl⟩, -, rfl⟩
        exact ⟨hh, by rwa [overlay_unbound]⟩
      · rintro ⟨hh, hf⟩
        exact ⟨f, unbound, hf, ⟨hh, rfl⟩, agree_unbound, (overlay_unbound f).symm⟩
    simp only [hjoin]
    cases holds with
    | false => exact ⟨h.clear, fun f => by simpa [check] using not_has_of_isEmpty rfl⟩
    | true =>
      by_cases he : r.isEmpty = true
      · have hnil : r.rows = #[] := by simpa [isEmpty] using he
        simp only [check, he, if_true, true_and]
        refine ⟨h.addUnit, fun f => ?_⟩
        rw [allows_of_isEmpty he, ← has_unit r]
        simp only [Has, Relation.addUnit, hnil]
        rfl
      · rw [Bool.not_eq_true] at he
        simp only [check, he, Bool.false_eq_true, if_false, if_true, true_and]
        exact ⟨h, fun f => (allows_of_not_isEmpty he).symm⟩
  | keys var keys =>
    have hkeys : ∀ f : String → Key,
        [var].map f ∈ keys.toList.map (fun k => [k]) ↔ f var ∈ keys := by
      intro f
      simp [Std.ExtTreeSet.mem_toList]
    have hlen := length_of_mem_singletons var keys
    have hc : r.bindKeys var keys = (.ok (), r') := hc
    unfold bindKeys at hc
    simp only at hc
    split at hc
    · next he =>
      have he : r.isEmpty = true := (Bool.and_eq_true_iff.mp he).1
      obtain ⟨hi, -, hhas⟩ := insertAll_spec h (fun g hg => absurd hg (not_has_of_isEmpty he))
        (by simp) hlen hc
      refine ⟨hi, fun f => ?_⟩
      rw [hhas, or_iff_right (not_has_of_isEmpty he), hkeys]
      constructor
      · intro hf
        exact ⟨unbound, f, (allows_of_isEmpty he).mpr rfl, hf, fun v hv => absurd rfl hv,
          (overlay_empty_left f).symm⟩
      · rintro ⟨a, b, ha, hb, -, rfl⟩
        rw [(allows_of_isEmpty he).mp ha]
        exact (overlay_empty_left b).symm ▸ hb
    · obtain ⟨hi, hhas⟩ := bindTuples_spec h heven (by simp) hlen hc
      refine ⟨hi, fun f => ?_⟩
      simp only [hhas, hkeys, Change.Allows]
  | tuples vars tuples => exact bindTuples_spec h heven hp.1 hp.2 hc

/-! ## Projection -/

theorem mem_distinct {seen : Std.ExtTreeSet (List Key) compare} {ts : List (List Key)}
    {t : List Key} : t ∈ distinct seen ts ↔ t ∈ ts ∧ t ∉ seen := by
  fun_induction distinct seen ts with
  | case1 => simp
  | case2 seen u ts hu ih =>
    rw [ih, List.mem_cons]
    constructor
    · rintro ⟨ht, hn⟩
      exact ⟨.inr ht, hn⟩
    · rintro ⟨rfl | ht, hn⟩
      · exact absurd hu hn
      · exact ⟨ht, hn⟩
  | case3 seen u ts hu ih =>
    rw [List.mem_cons, ih, Std.ExtTreeSet.mem_insert, Std.LawfulEqOrd.compare_eq_iff_eq,
      List.mem_cons, not_or]
    constructor
    · rintro (rfl | ⟨ht, -, hn⟩)
      · exact ⟨.inl rfl, hu⟩
      · exact ⟨.inr ht, hn⟩
    · rintro ⟨rfl | ht, hn⟩
      · exact .inl rfl
      · by_cases heq : u = t
        · exact .inl heq.symm
        · exact .inr ⟨ht, heq, hn⟩

theorem nodup_distinct (seen : Std.ExtTreeSet (List Key) compare) (ts : List (List Key)) :
    (distinct seen ts).Nodup := by
  fun_induction distinct seen ts with
  | case1 => exact List.nodup_nil
  | case2 _ _ _ _ ih => exact ih
  | case3 seen u ts _ ih =>
    refine List.nodup_cons.mpr ⟨fun hmem => ?_, ih⟩
    refine (mem_distinct.mp hmem).2 ?_
    rw [Std.ExtTreeSet.mem_insert]
    exact .inl Std.ReflCmp.compare_self

theorem tuple?_eq_some {row : Row} {keys : List Key} :
    r.tuple? vars row = some keys ↔
      (∀ v ∈ vars, r.valueIn row v ≠ Key.empty) ∧ keys = vars.map (r.valueIn row) := by
  induction vars generalizing keys with
  | nil => exact ⟨fun h => ⟨by simp, (Option.some.inj h).symm⟩, fun h => h.2 ▸ rfl⟩
  | cons v vars ih =>
    rw [tuple?] at ih ⊢
    rw [List.mapM_cons]
    by_cases hv : r.valueIn row v = Key.empty
    · simp [hv, Key.isEmpty]
    · simp only [Key.isEmpty, decide_eq_true_eq, hv, if_false, Option.bind_eq_bind,
        Option.bind_some, Option.bind_eq_some_iff] at ih ⊢
      simp only [ih, List.forall_mem_cons, hv, ne_eq, not_false_eq_true, true_and, List.map_cons]
      constructor
      · rintro ⟨rest, ⟨hall, rfl⟩, heq⟩
        exact ⟨hall, (Option.some.inj heq).symm⟩
      · rintro ⟨hall, rfl⟩
        exact ⟨_, ⟨hall, rfl⟩, rfl⟩

/-- The projected tuples are those of the assignments that bind all the variables. -/
theorem mem_project {keys : List Key} :
    keys ∈ r.project vars ↔
      ∃ f, r.Has f ∧ (∀ v ∈ vars, f v ≠ Key.empty) ∧ keys = vars.map f := by
  rw [project, mem_distinct, List.mem_filterMap]
  simp only [Std.ExtTreeSet.not_mem_empty, not_false_eq_true, and_true, Array.mem_toList_iff,
    tuple?_eq_some]
  constructor
  · rintro ⟨row, hrow, hall⟩
    exact ⟨_, ⟨row, hrow, rfl⟩, hall⟩
  · rintro ⟨-, ⟨row, hrow, rfl⟩, hall⟩
    exact ⟨row, hrow, hall⟩

theorem nodup_project (r : Relation) (vars : List String) : (r.project vars).Nodup :=
  nodup_distinct _ _

end Relation

end TripleStore
