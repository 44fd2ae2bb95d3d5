import Mathlib.Data.List.ProdSigma
import TripleStore.Proofs.Relation.Exact

/-!
# Rows without repetition

The rows of a relation stand for assignments, and no operation makes two rows for
the same one.  An insertion skips a tuple that some row carries.  A join makes a
row for a pair of rows that agree, and if all rows of each side bind the same
variables the pair can be read off the row.

An insertion into a relation that is full fails only over a tuple that no row
carries.  So what was inserted before and this tuple are more assignments than the
relation may have rows, and whether an insertion fails is a matter of how many
assignments the tuples stand for.
-/

namespace TripleStore

namespace Relation

variable {r r' other : Relation} {vars : List String} {f g : String → Key}

/-! ## Assignments of rows -/

/-- The assignments that rows stand for, in the order of the rows. -/
def assignments (r : Relation) : List (String → Key) := r.rows.toList.map r.valueIn

theorem mem_assignments : f ∈ r.assignments ↔ r.Has f := by simp [assignments, Has]

theorem length_assignments (r : Relation) : r.assignments.length = r.size := by
  rw [assignments, List.length_map, Array.length_toList, size]

/-- No two rows stand for the same assignment. -/
def Distinct (r : Relation) : Prop := r.assignments.Nodup

theorem Distinct.nodup_rows (h : r.Distinct) : r.rows.toList.Nodup := h.of_map _

/-- A row is settled by its assignment. -/
theorem Distinct.row_inj (h : r.Distinct) {row row' : Row} (hrow : row ∈ r.rows)
    (hrow' : row' ∈ r.rows) (heq : r.valueIn row = r.valueIn row') : row = row' :=
  List.inj_on_of_nodup_map h (Array.mem_toList_iff.mpr hrow) (Array.mem_toList_iff.mpr hrow') heq

theorem distinct_of_isEmpty (h : r.isEmpty = true) : r.Distinct := by
  have hnil : r.rows = #[] := by simpa [isEmpty] using h
  simp [Distinct, assignments, hnil]

/-- Different assignments need a row each. -/
theorem length_le_size {fs : List (String → Key)} (hnd : fs.Nodup) (h : ∀ f ∈ fs, r.Has f) :
    fs.length ≤ r.size := by
  rw [← length_assignments]
  exact hnd.length_le_of_subset fun f hf => mem_assignments.mpr (h f hf)

/-! ## Insertion -/

theorem assignments_append (h : r.Indexed) (hf : Binds f vars) :
    (r.append (vars.map fun v => (v, f v))).assignments = r.assignments ++ [f] := by
  rw [assignments, rows_append, Array.toList_push, List.map_append, List.map_singleton,
    valueIn_rowOf hf columns_append]
  congr 1
  exact List.map_congr_left fun old hold =>
    valueIn_addColumns h columns_append (Array.mem_toList_iff.mp hold)

/-- A tuple adds nothing, or is that of an assignment no row stands for yet. -/
theorem insert_cases {keys : List Key} (h : r.Indexed) (heven : ∀ g, r.Has g → Binds g vars)
    (hne : vars ≠ []) (hlen : keys.length = vars.length) :
    (r.insert (vars.zip keys) = .ok r ∧ ∀ g, Binds g vars → vars.map g = keys → r.Has g) ∨
      ∃ g, Binds g vars ∧ vars.map g = keys ∧ ¬ r.Has g ∧ r.insert (vars.zip keys) =
        if r.limit ≤ r.size then .error (.rowLimit r.limit)
        else .ok (r.append (vars.map fun v => (v, g v))) := by
  cases hskip : r.skips (vars.zip keys) with
  | true =>
    have hins : r.insert (vars.zip keys) = .ok r := by rw [Relation.insert, if_pos hskip]
    obtain ⟨-, -, hhas⟩ := insert_spec h heven hne hlen hins
    exact .inl ⟨hins, fun g hg hkeys => (hhas g).mpr (.inr ⟨hg, hkeys⟩)⟩
  | false =>
    have hins : r.insert (vars.zip keys) = if r.limit ≤ r.size then .error (.rowLimit r.limit)
        else .ok (r.append (vars.zip keys)) := by
      rw [Relation.insert, if_neg (by simp [hskip])]
    simp only [skips, Bool.or_eq_false_iff, Bool.not_eq_false', List.any_eq_false] at hskip
    obtain ⟨⟨hfull, hcons⟩, hnew⟩ := hskip
    obtain ⟨g, hg, rfl⟩ := exists_assignment hlen
      (fun p hp => by simpa [Key.isEmpty] using hfull p hp) hcons
    refine .inr ⟨g, hg, rfl, ?_, zip_map_self vars g ▸ hins⟩
    rintro ⟨row, hrow, rfl⟩
    rw [zip_map_self] at hnew
    have hcarries : r.carries (vars.map fun v => (v, r.valueIn row v)) = true := by
      refine (h.carries_iff (by simpa using hne)).mpr ⟨row, hrow, fun p hp => ?_⟩
      obtain ⟨v, hv, rfl⟩ := List.mem_map.mp hp
      exact ⟨(hg v).mpr hv, rfl⟩
    rw [hcarries] at hnew
    cases hnew

/-- What an insertion of tuples leaves, whether or not it fails. -/
structure Inserted (r : Relation) (vars : List String) (tuples : List (List Key))
    (out : Except Fault Unit × Relation) : Prop where
  /-- The limit stays. -/
  limit : out.2.limit = r.limit
  /-- No row is repeated. -/
  distinct : r.Distinct → out.2.Distinct
  /-- There are no more rows than there may be. -/
  size_le : r.size ≤ r.limit → out.2.size ≤ out.2.limit
  /-- Rows that are new are those of tuples. -/
  sound : ∀ f, out.2.Has f → r.Has f ∨ Binds f vars ∧ vars.map f ∈ tuples
  /-- All tuples have rows, or there is no place for the row of one. -/
  outcome : (out.1 = .ok () ∧ ∀ f, r.Has f ∨ Binds f vars ∧ vars.map f ∈ tuples → out.2.Has f) ∨
    (out.1 = .error (.rowLimit r.limit) ∧ r.limit ≤ out.2.size ∧
      ∃ f, (Binds f vars ∧ vars.map f ∈ tuples) ∧ ¬ out.2.Has f)

/-- An insertion of one tuple and then of others. -/
theorem Inserted.cons {r₁ : Relation} {keys : List Key} {rest : List (List Key)}
    {out : Except Fault Unit × Relation} (h : Inserted r₁ vars rest out)
    (hlimit : r₁.limit = r.limit) (hdistinct : r.Distinct → r₁.Distinct)
    (hsize : r.size ≤ r.limit → r₁.size ≤ r₁.limit)
    (hhas : ∀ f, r₁.Has f ↔ r.Has f ∨ Binds f vars ∧ vars.map f = keys) :
    Inserted r vars (keys :: rest) out := by
  have hmem : ∀ f, (r₁.Has f ∨ Binds f vars ∧ vars.map f ∈ rest) ↔
      r.Has f ∨ Binds f vars ∧ vars.map f ∈ keys :: rest := by
    intro f
    rw [hhas, List.mem_cons, or_assoc, and_or_left]
  refine ⟨h.limit.trans hlimit, fun hnd => h.distinct (hdistinct hnd),
    fun hle => h.size_le (hsize hle), fun f hf => (hmem f).mp (h.sound f hf), h.outcome.imp ?_ ?_⟩
  · rintro ⟨hok, hall⟩
    exact ⟨hok, fun f hf => hall f ((hmem f).mpr hf)⟩
  · rintro ⟨herr, hfull, f, ⟨hb, hf⟩, hn⟩
    rw [hlimit] at herr hfull
    exact ⟨herr, hfull, f, ⟨hb, List.mem_cons_of_mem _ hf⟩, hn⟩

theorem inserted_insertAll {tuples : List (List Key)} (h : r.Indexed)
    (heven : ∀ g, r.Has g → Binds g vars) (hne : vars ≠ [])
    (hlen : ∀ keys ∈ tuples, keys.length = vars.length) :
    Inserted r vars tuples (r.insertAll vars tuples) := by
  induction tuples generalizing r with
  | nil =>
    exact ⟨rfl, id, id, fun f hf => .inl hf, .inl ⟨rfl, fun f hf => hf.resolve_right (by simp)⟩⟩
  | cons keys rest ih =>
    obtain ⟨hkeys, hrest⟩ := List.forall_mem_cons.mp hlen
    rw [insertAll]
    rcases insert_cases h heven hne hkeys with ⟨hins, hold⟩ | ⟨g, hg, rfl, hnew, hins⟩
    · rw [hins]
      refine (ih h heven hrest).cons rfl id id fun f => ?_
      exact ⟨.inl, fun hf => hf.elim id fun hf => hold f hf.1 hf.2⟩
    · rw [hins]
      by_cases hfull : r.limit ≤ r.size
      · rw [if_pos hfull]
        exact ⟨rfl, id, id, fun f hf => .inl hf,
          .inr ⟨rfl, hfull, g, ⟨hg, List.mem_cons_self⟩, hnew⟩⟩
      · rw [if_neg hfull]
        have hhas : ∀ f, (r.append (vars.map fun v => (v, g v))).Has f ↔ r.Has f ∨ f = g :=
          fun f => has_append h hg
        have hcons := ih (indexed_append h _)
          (fun f hf => ((hhas f).mp hf).elim (heven f) fun heq => heq ▸ hg) hrest
        refine hcons.cons rfl (fun hnd => ?_) (fun _ => ?_) fun f => ?_
        · rw [Distinct, assignments_append h hg]
          exact List.nodup_append'.mpr ⟨hnd, List.nodup_singleton g,
            by simpa [mem_assignments] using hnew⟩
        · rw [← length_assignments, assignments_append h hg, List.length_append, length_assignments]
          exact Nat.not_le.mp hfull
        · rw [hhas]
          refine or_congr_right ⟨?_, fun hf => hf.1.eq hg hf.2⟩
          rintro rfl
          exact ⟨hg, rfl⟩

/-! ## Joins -/

theorem mem_pairs {on : List String} {p : Row × Row} : p ∈ r.pairs other on ↔
    p.1 ∈ r.rows ∧ p.2 ∈ other.rows ∧ ∀ v ∈ on, r.valueIn p.1 v ≠ Key.empty ∧
      r.valueIn p.1 v = other.valueIn p.2 v := by
  obtain ⟨row, o⟩ := p
  have hmem : (row, o) ∈ r.rows.toList ×ˢ other.rows.toList ↔ row ∈ r.rows ∧ o ∈ other.rows := by
    rw [← Array.mem_toList_iff, ← Array.mem_toList_iff]
    exact List.pair_mem_product
  rw [pairs, List.mem_filter, hmem, and_assoc]
  simp [agreeOn, Key.isEmpty]

theorem Joined.assignments_eq {on : List String} (h : Joined r other on r') (hr : r.Indexed)
    (ho : other.Indexed) : r'.assignments =
      (r.pairs other on).map fun p => overlay (r.valueIn p.1) (other.valueIn p.2) := by
  rw [assignments, h.rows, nestedJoin_eq_pairs, List.map_map]
  refine List.map_congr_left fun p hp => ?_
  rw [Function.comp_apply, ← h.columns,
    valueIn_merge h.columns ho.columns_nodup (hr.fits _ (mem_pairs.mp hp).1)]

/-- Assignments that agree are read off their overlay. -/
theorem overlay_inj {a a' b b' : String → Key} {vars' : List String} (ha : Binds a vars)
    (ha' : Binds a' vars) (hb : Binds b vars') (hb' : Binds b' vars') (hab : Agree a b)
    (hab' : Agree a' b') (heq : overlay a b = overlay a' b') : a = a' ∧ b = b' := by
  constructor
  · refine ha.eq ha' (List.map_congr_left fun v hv => ?_)
    rw [← overlay_of_agree hab ((ha v).mpr hv), heq, overlay_of_agree hab' ((ha' v).mpr hv)]
  · refine hb.eq hb' (List.map_congr_left fun v hv => ?_)
    rw [← overlay_of_ne_empty a ((hb v).mpr hv), heq, overlay_of_ne_empty a' ((hb' v).mpr hv)]

theorem distinct_base (h : r.Distinct) : r.base.Distinct := by
  rw [base]
  split
  · simp [Distinct, assignments, addUnit, clear]
  · exact h

/-- A combination of rows that are not repeated does not repeat rows. -/
theorem combine_distinct {found : Relation} {vars' : List String} (h : r.Indexed)
    (hf : found.Indexed) (hd : r.Distinct) (hd' : found.Distinct) (heven : r.Even vars)
    (hcols : ∀ v, v ∈ found.columns → v ∈ vars') (heven' : ∀ g, found.Has g → Binds g vars')
    (hc : r.combine found = (.ok (), r')) : r'.Distinct := by
  rw [combine_eq h] at hc
  rw [Distinct, (join_spec h.base hf hc).assignments_eq h.base hf]
  have hrows : (r.base.rows.toList ×ˢ found.rows.toList).Nodup :=
    (distinct_base hd).nodup_rows.product hd'.nodup_rows
  refine List.Nodup.map_on (fun p hp q hq heq => ?_) (hrows.filter _)
  obtain ⟨hp₁, hp₂, hpon⟩ := mem_pairs.mp hp
  obtain ⟨hq₁, hq₂, hqon⟩ := mem_pairs.mp hq
  have hallows : ∀ row ∈ r.base.rows, r.Allows (r.base.valueIn row) :=
    fun row hrow => (has_base r).mp ⟨row, hrow, rfl⟩
  obtain ⟨hfst, hsnd⟩ := overlay_inj (heven _ (hallows _ hp₁)) (heven _ (hallows _ hq₁))
    (heven' _ ⟨p.2, hp₂, rfl⟩) (heven' _ ⟨q.2, hq₂, rfl⟩)
    ((agree_iff h heven hcols heven' (hallows _ hp₁) ⟨p.2, hp₂, rfl⟩).mp hpon)
    ((agree_iff h heven hcols heven' (hallows _ hq₁) ⟨q.2, hq₂, rfl⟩).mp hqon) heq
  exact Prod.ext ((distinct_base hd).row_inj hp₁ hq₁ hfst) (hd'.row_inj hp₂ hq₂ hsnd)

/-! ## Tuples -/

theorem addColumns_of_subset {columns : List String} (h : ∀ v ∈ vars, v ∈ columns) :
    addColumns columns vars = columns := by
  induction vars with
  | nil => rfl
  | cons v vars ih =>
    obtain ⟨hv, hvs⟩ := List.forall_mem_cons.mp h
    show addColumns (addColumn columns v) vars = columns
    rw [addColumn, if_pos hv, ih hvs]

/-- Tuples of variables that have columns add no columns. -/
theorem columns_insertAll {tuples : List (List Key)} (h : ∀ v ∈ vars, v ∈ r.columns) :
    (r.insertAll vars tuples).2.columns = r.columns := by
  induction tuples generalizing r with
  | nil => rfl
  | cons keys rest ih =>
    have hsub : ∀ v ∈ (vars.zip keys).map Prod.fst, v ∈ r.columns := by
      intro v hv
      obtain ⟨p, hp, rfl⟩ := List.mem_map.mp hv
      exact h _ (List.of_mem_zip hp).1
    have happend : (r.append (vars.zip keys)).columns = r.columns := addColumns_of_subset hsub
    rw [insertAll, Relation.insert]
    split
    · next r₁ hins =>
      split at hins
      · exact Except.ok.inj hins ▸ ih h
      · split at hins
        · cases hins
        · obtain rfl := Except.ok.inj hins
          rw [ih (happend.symm ▸ h), happend]
    · rfl

/-- A relation has a row for each assignment that tuples stand for. -/
structure Lists (vars : List String) (tuples : List (List Key)) (found : Relation) : Prop where
  /-- The index is exact. -/
  exact : found.Exact
  /-- The columns are the variables. -/
  columns : found.columns = addColumns [] vars
  /-- No row is repeated. -/
  distinct : found.Distinct
  /-- There are no more rows than a relation may have. -/
  size_le : found.size ≤ maxRows
  /-- The rows are those of the tuples. -/
  has : ∀ f, found.Has f ↔ Binds f vars ∧ vars.map f ∈ tuples

theorem inserted_ofTuples {tuples : List (List Key)} (hne : vars ≠ [])
    (hlen : ∀ keys ∈ tuples, keys.length = vars.length) :
    Inserted (Relation.new vars) vars tuples (ofTuples vars tuples) :=
  inserted_insertAll (indexed_new vars) (fun _ hg => absurd hg (not_has_of_isEmpty rfl)) hne hlen

theorem ofTuples_spec {tuples : List (List Key)} {found : Relation} (hne : vars ≠ [])
    (hlen : ∀ keys ∈ tuples, keys.length = vars.length)
    (h : ofTuples vars tuples = (.ok (), found)) : Lists vars tuples found := by
  have hins := inserted_ofTuples hne hlen
  have hexact := (exact_new vars).insertAll vars tuples
  have hcols : (ofTuples vars tuples).2.columns = addColumns [] vars :=
    columns_insertAll fun v hv => mem_addColumns.mpr (.inr hv)
  have hnew : ∀ f, ¬ (Relation.new vars).Has f := fun f => not_has_of_isEmpty rfl
  rw [← ofTuples] at hexact
  rw [h] at hins hexact hcols
  refine ⟨hexact, hcols, hins.distinct (distinct_of_isEmpty rfl), ?_, fun f => ⟨fun hf => ?_, ?_⟩⟩
  · exact (hins.size_le (Nat.zero_le _)).trans (Nat.le_of_eq hins.limit)
  · exact (hins.sound f hf).resolve_left (hnew f)
  · intro hf
    rcases hins.outcome with ⟨-, hall⟩ | ⟨herr, -⟩
    · exact hall f (.inr hf)
    · cases herr

theorem Lists.mem_vars {tuples : List (List Key)} {found : Relation} (h : Lists vars tuples found)
    {v : String} (hv : v ∈ found.columns) : v ∈ vars := by
  rw [h.columns] at hv
  exact (mem_addColumns.mp hv).resolve_left List.not_mem_nil

/-! ## Changes -/

/-- The index of a relation is exact, no row is repeated, and there are no more rows than any
relation may have. -/
structure Tidy (r : Relation) : Prop extends r.Exact where
  /-- No row is repeated. -/
  distinct : r.Distinct
  /-- There are no more rows than there may be. -/
  size_le : r.size ≤ maxRows
  /-- There may be as many as in any relation. -/
  limit : r.limit = maxRows

theorem tidy_new (vars : List String) : (Relation.new vars).Tidy :=
  ⟨exact_new vars, distinct_of_isEmpty rfl, Nat.zero_le _, rfl⟩

theorem Exact.base (h : r.Exact) : r.base.Exact := by
  rw [Relation.base]
  split
  · exact h.clear.addUnit
  · exact h

/-- Tuples that are bound leave a tidy relation. -/
theorem Tidy.bindTuples {tuples : List (List Key)} {vars' : List String} (h : r.Tidy)
    (heven : r.Even vars') (hne : vars ≠ []) (hlen : ∀ keys ∈ tuples, keys.length = vars.length)
    (hc : r.bindTuples vars tuples = (.ok (), r')) : r'.Tidy := by
  rw [Relation.bindTuples] at hc
  split at hc
  · next u found hfound =>
    have hl := ofTuples_spec hne hlen hfound
    have hd := combine_distinct h.toIndexed hl.exact.toIndexed h.distinct hl.distinct heven
      (fun v hv => hl.mem_vars hv) (fun g hg => ((hl.has g).mp hg).1) hc
    rw [combine_eq h.toIndexed] at hc
    have hj := h.toExact.base.join hl.exact (found.columns.filter r.binds)
    have hlimit : r.base.limit = maxRows := (base_columns_limit r).2.trans h.limit
    rw [hc] at hj
    rw [join_eq h.toIndexed.base hl.exact.toIndexed] at hc
    split at hc
    · cases hc
    · next hfits =>
      obtain rfl := (Prod.mk.inj hc).2
      refine ⟨hj, hd, ?_, hlimit⟩
      rw [hlimit, Nat.not_lt] at hfits
      exact hfits
  · cases hc

/-- A change that succeeds leaves a tidy relation. -/
theorem Tidy.apply {change : Change} (h : r.Tidy) (heven : r.Even vars) (hp : change.Proper)
    (hc : r.apply change = (.ok (), r')) : r'.Tidy := by
  cases change with
  | check holds =>
    obtain rfl : r.check holds = r' := (Prod.mk.inj hc).2
    cases holds with
    | false => exact ⟨h.toExact.clear, distinct_of_isEmpty rfl, Nat.zero_le _, h.limit⟩
    | true =>
      by_cases he : r.isEmpty = true
      · have hnil : r.rows = #[] := by simpa [isEmpty] using he
        simp only [check, he, if_true]
        refine ⟨h.toExact.addUnit, ?_, ?_, h.limit⟩
        · simp [Distinct, assignments, addUnit, hnil]
        · simp [size, addUnit, hnil, maxRows]
      · rw [Bool.not_eq_true] at he
        simpa [check, he] using h
  | keys var keys =>
    have hc : r.bindKeys var keys = (.ok (), r') := hc
    unfold bindKeys at hc
    simp only at hc
    split at hc
    · next he =>
      have he : r.isEmpty = true := (Bool.and_eq_true_iff.mp he).1
      have hins := inserted_insertAll h.toIndexed
        (fun g hg => absurd hg (not_has_of_isEmpty he)) (List.cons_ne_nil var [])
        (length_of_mem_singletons var keys)
      have hexact := h.toExact.insertAll [var] (keys.toList.map fun k => [k])
      rw [hc] at hins hexact
      have hlimit : r'.limit = maxRows := hins.limit.trans h.limit
      exact ⟨hexact, hins.distinct h.distinct,
        hlimit ▸ hins.size_le (h.limit.symm ▸ h.size_le), hlimit⟩
    · exact h.bindTuples heven (List.cons_ne_nil var []) (length_of_mem_singletons var keys) hc
  | tuples names tuples => exact h.bindTuples heven hp.1 hp.2 hc

end Relation

end TripleStore
