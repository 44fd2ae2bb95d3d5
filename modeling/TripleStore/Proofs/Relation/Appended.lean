import TripleStore.Proofs.Relation.Distinct
import TripleStore.Proofs.Relation.Reached

/-!
# What an insertion appends

The rows that are there stay, and rows come after them.  A tuple gets a row if it has no
empty key and no two keys for one variable, and if no row carries it yet.  A row carries a
tuple that it binds, whatever else it binds, and rows that were just appended count as
well.  If there is no place for the row of a tuple the insertion fails, and the rows that
were appended before stay.

So an insertion that succeeds leaves a row for each tuple that may have one, and nothing
is left to do for the same tuples.
-/

namespace TripleStore

namespace Relation

variable {r : Relation} {vars : List String} {keys : List Key} {tuples : List (List Key)}
  {f : String → Key} {has : List (String → Key)}

/-! ## Tuples -/

/-- A tuple has no empty key, and the same key for a variable that is named again. -/
def Proper (vars : List String) (keys : List Key) : Prop :=
  (∀ k ∈ keys, k ≠ Key.empty) ∧
    ∀ p ∈ vars.zip keys, ∀ q ∈ vars.zip keys, p.1 = q.1 → p.2 = q.2

/-- An assignment binds variables to the keys of a tuple, whatever else it binds. -/
def Carries (vars : List String) (keys : List Key) (f : String → Key) : Prop :=
  ∀ p ∈ vars.zip keys, f p.1 = p.2

/-- A tuple may have a row, and none of those that are there carries it. -/
def Lacking (vars : List String) (has : List (String → Key)) (keys : List Key) : Prop :=
  Proper vars keys ∧ ∀ f ∈ has, ¬ Carries vars keys f

/-- The assignment that binds variables to the keys of a tuple, and nothing else. -/
def graphOf (vars : List String) (keys : List Key) : String → Key :=
  fun v => keys.getD (vars.idxOf v) Key.empty

instance (vars : List String) (keys : List Key) : Decidable (Proper vars keys) := by
  unfold Proper
  infer_instance

instance (vars : List String) (keys : List Key) : DecidablePred (Carries vars keys) := by
  unfold Carries
  infer_instance

instance (vars : List String) (has : List (String → Key)) : DecidablePred (Lacking vars has) := by
  unfold Lacking
  infer_instance

/-- The rows that tuples lack one after the other, if rows stand for some assignments already. -/
def additions (vars : List String) :
    List (String → Key) → List (List Key) → List (String → Key)
  | _, [] => []
  | has, keys :: rest =>
    if Lacking vars has keys then
      graphOf vars keys :: additions vars (has ++ [graphOf vars keys]) rest
    else additions vars has rest

theorem graphOf_map (hf : Binds f vars) : graphOf vars (vars.map f) = f := by
  funext v
  rw [graphOf]
  by_cases hv : v ∈ vars
  · have hlt : vars.idxOf v < (vars.map f).length := by
      rw [List.length_map]
      exact List.idxOf_lt_length_of_mem hv
    rw [List.getD_eq_getElem _ _ hlt, List.getElem_map, List.getElem_idxOf]
  · rw [List.getD_eq_default _ _ (by rw [List.length_map, List.idxOf_eq_length hv])]
    exact (not_not.mp (mt (hf v).mp hv)).symm

theorem consistent_iff {tuple : List (String × Key)} :
    consistent tuple = true ↔ ∀ p ∈ tuple, ∀ q ∈ tuple, p.1 = q.1 → p.2 = q.2 := by
  induction tuple with
  | nil => simp [consistent]
  | cons p tuple ih =>
    have hhead : (tuple.all fun q => decide (q.1 ≠ p.1) || decide (q.2 = p.2)) = true ↔
        ∀ q ∈ tuple, q.1 = p.1 → q.2 = p.2 := by
      simp only [List.all_eq_true, Bool.or_eq_true, decide_eq_true_eq, ne_eq, imp_iff_not_or]
    rw [consistent, Bool.and_eq_true, ih, hhead]
    constructor
    · rintro ⟨hp, htuple⟩
      refine List.forall_mem_cons.mpr ⟨List.forall_mem_cons.mpr ⟨fun _ => rfl, ?_⟩, ?_⟩
      · exact fun q hq heq => (hp q hq heq.symm).symm
      · exact fun q hq => List.forall_mem_cons.mpr ⟨hp q hq, htuple q hq⟩
    · intro h
      obtain ⟨-, htuple⟩ := List.forall_mem_cons.mp h
      refine ⟨fun q hq => (List.forall_mem_cons.mp (htuple q hq)).1, fun q hq => ?_⟩
      exact (List.forall_mem_cons.mp (htuple q hq)).2

/-- A tuple that may have a row is the graph of an assignment. -/
theorem Proper.exists_binds (h : Proper vars keys) (hlen : keys.length = vars.length) :
    ∃ f, Binds f vars ∧ keys = vars.map f :=
  exists_assignment hlen (fun _ hp => h.1 _ (List.of_mem_zip hp).2) (consistent_iff.mpr h.2)

theorem carries_map {g : String → Key} : Carries vars (vars.map g) f ↔ ∀ v ∈ vars, f v = g v := by
  rw [Carries, zip_map_self, List.forall_mem_map]

/-- The row of a tuple carries it. -/
theorem Proper.carries_graphOf (h : Proper vars keys) (hlen : keys.length = vars.length) :
    Carries vars keys (graphOf vars keys) := by
  obtain ⟨g, hg, rfl⟩ := h.exists_binds hlen
  rw [graphOf_map hg]
  exact carries_map.mpr fun _ _ => rfl

/-- Rows that are there and rows that are appended carry all tuples that may have one. -/
theorem exists_carries (hlen : ∀ keys ∈ tuples, keys.length = vars.length) :
    ∀ keys ∈ tuples, Proper vars keys → ∃ f ∈ has ++ additions vars has tuples,
      Carries vars keys f := by
  induction tuples generalizing has with
  | nil => exact List.forall_mem_nil _
  | cons keys rest ih =>
    obtain ⟨hkeys, hrest⟩ := List.forall_mem_cons.mp hlen
    rw [additions]
    split
    · next hlack =>
      rw [List.append_cons]
      refine List.forall_mem_cons.mpr ⟨fun hproper => ⟨graphOf vars keys, ?_, ?_⟩, ih hrest⟩
      · exact List.mem_append_left _ (List.mem_append_right _ List.mem_cons_self)
      · exact hproper.carries_graphOf hkeys
    · next hlack =>
      refine List.forall_mem_cons.mpr ⟨fun hproper => ?_, ih hrest⟩
      simp only [Lacking, not_and, not_forall, not_not] at hlack
      obtain ⟨f, hf, hcarries⟩ := hlack hproper
      exact ⟨f, List.mem_append_left _ hf, hcarries⟩

/-! ## One tuple -/

/-- A tuple is skipped unless it lacks a row. -/
theorem skips_eq_false_iff (h : r.Indexed) (hne : vars ≠ []) (hlen : keys.length = vars.length) :
    r.skips (vars.zip keys) = false ↔ Lacking vars r.assignments keys := by
  have hzip : vars.zip keys ≠ [] := by
    intro hnil
    rcases List.zip_eq_nil_iff.mp hnil with rfl | rfl
    · exact hne rfl
    · exact hne (List.eq_nil_of_length_eq_zero hlen.symm)
  have hfull : (∀ p ∈ vars.zip keys, p.2 ≠ Key.empty) ↔ ∀ k ∈ keys, k ≠ Key.empty := by
    refine ⟨fun hpairs k hk => ?_, fun hkeys p hp => hkeys _ (List.of_mem_zip hp).2⟩
    rw [← List.map_snd_zip (Nat.le_of_eq hlen)] at hk
    obtain ⟨p, hp, rfl⟩ := List.mem_map.mp hk
    exact hpairs p hp
  have hsplit : r.skips (vars.zip keys) = false ↔
      (∀ p ∈ vars.zip keys, p.2 ≠ Key.empty) ∧ consistent (vars.zip keys) = true ∧
        ¬ r.carries (vars.zip keys) = true := by
    simp [skips, Key.isEmpty, and_assoc]
  rw [hsplit, consistent_iff, h.carries_iff hzip, Lacking, Proper, ← hfull, and_assoc]
  refine and_congr_right fun hkeys => and_congr_right fun _ => ?_
  constructor
  · rintro hnone f hf hcarries
    obtain ⟨row, hrow, rfl⟩ := mem_assignments.mp hf
    exact hnone ⟨row, hrow, fun p hp => ⟨hkeys p hp, hcarries p hp⟩⟩
  · rintro hnone ⟨row, hrow, hcarries⟩
    exact hnone _ (mem_assignments.mpr ⟨row, hrow, rfl⟩) fun p hp => (hcarries p hp).2

/-- A tuple that lacks a row gets one, if there is a place. -/
theorem insert_eq (h : r.Indexed) (hne : vars ≠ []) (hlen : keys.length = vars.length) :
    r.insert (vars.zip keys) = if Lacking vars r.assignments keys then
      if r.limit ≤ r.size then .error (.rowLimit r.limit) else .ok (r.append (vars.zip keys))
      else .ok r := by
  rw [insert]
  by_cases hlack : Lacking vars r.assignments keys
  · rw [if_pos hlack, (skips_eq_false_iff h hne hlen).mpr hlack]
    simp only [Bool.false_eq_true, if_false]
  · rw [if_neg hlack, if_pos]
    exact Bool.of_not_eq_false fun hskip => hlack ((skips_eq_false_iff h hne hlen).mp hskip)

/-- The row that is appended is that of the tuple. -/
theorem assignments_append_zip (h : r.Indexed) (hlen : keys.length = vars.length)
    (hproper : Proper vars keys) :
    (r.append (vars.zip keys)).assignments = r.assignments ++ [graphOf vars keys] := by
  obtain ⟨g, hg, rfl⟩ := hproper.exists_binds hlen
  rw [zip_map_self, assignments_append h hg, graphOf_map hg]

/-! ## All tuples -/

/-- What an insertion of tuples appends, whether or not it fails. -/
structure Appends (r : Relation) (vars : List String) (tuples : List (List Key))
    (out : Except Fault Unit × Relation) : Prop where
  /-- The rows stay, in place. -/
  rows : ∃ news : Array Row, out.2.rows = r.rows ++ news
  /-- They bind what they did. -/
  valueIn : ∀ row ∈ r.rows, out.2.valueIn row = r.valueIn row
  /-- The tuples that lack rows get them, as long as there is a place. -/
  assignments : out.2.assignments =
    r.assignments ++ (additions vars r.assignments tuples).take (r.limit - r.size)
  /-- The insertion fails if there was no place for one. -/
  outcome : out.1 = if (additions vars r.assignments tuples).length ≤ r.limit - r.size then .ok ()
    else .error (.rowLimit r.limit)

/-- A tuple that gets a row, and then others. -/
theorem Appends.cons {rest : List (List Key)} {out : Except Fault Unit × Relation}
    (h : r.Indexed) (hlen : keys.length = vars.length) (hlack : Lacking vars r.assignments keys)
    (hroom : ¬ r.limit ≤ r.size) (hrest : Appends (r.append (vars.zip keys)) vars rest out) :
    Appends r vars (keys :: rest) out := by
  obtain ⟨⟨news, hnews⟩, hvalue, hassign, houtcome⟩ := hrest
  have hfirst := assignments_append_zip h hlen hlack.1
  have hadd : additions vars r.assignments (keys :: rest) = graphOf vars keys ::
      additions vars (r.append (vars.zip keys)).assignments rest := by
    rw [additions, if_pos hlack, hfirst]
  have hleft : r.limit - r.size =
      ((r.append (vars.zip keys)).limit - (r.append (vars.zip keys)).size) + 1 := by
    have hlimit : (r.append (vars.zip keys)).limit = r.limit := rfl
    have hsize : (r.append (vars.zip keys)).size = r.size + 1 := Array.size_push _
    omega
  refine ⟨?_, fun old hold => ?_, ?_, ?_⟩
  · rw [append, Array.push_eq_append, Array.append_assoc] at hnews
    exact ⟨_, hnews⟩
  · rw [hvalue old (Array.mem_push.mpr (.inl hold))]
    exact valueIn_addColumns h rfl hold
  · rw [hassign, hadd, hleft, List.take_succ_cons, List.append_cons, ← hfirst]
  · rw [houtcome, hadd, hleft, List.length_cons]
    simp only [Nat.add_le_add_iff_right]
    rfl

theorem appends_insertAll (h : r.Indexed) (hne : vars ≠ [])
    (hlen : ∀ keys ∈ tuples, keys.length = vars.length) :
    Appends r vars tuples (r.insertAll vars tuples) := by
  induction tuples generalizing r with
  | nil => exact ⟨⟨#[], by simp [insertAll]⟩, fun _ _ => rfl, by simp [insertAll, additions], rfl⟩
  | cons keys rest ih =>
    obtain ⟨hkeys, hrest⟩ := List.forall_mem_cons.mp hlen
    rw [insertAll, insert_eq h hne hkeys]
    by_cases hlack : Lacking vars r.assignments keys
    · rw [if_pos hlack]
      by_cases hfull : r.limit ≤ r.size
      · rw [if_pos hfull]
        have hroom : r.limit - r.size = 0 := Nat.sub_eq_zero_of_le hfull
        refine ⟨⟨#[], Array.append_empty.symm⟩, fun _ _ => rfl, ?_, ?_⟩
        · rw [hroom, List.take_zero, List.append_nil]
        · rw [additions, if_pos hlack, hroom, if_neg (by simp)]
      · rw [if_neg hfull]
        exact (ih (indexed_append h _) hrest).cons h hkeys hlack hfull
    · rw [if_neg hlack]
      have hsame : additions vars r.assignments (keys :: rest) =
          additions vars r.assignments rest := by rw [additions, if_neg hlack]
      obtain ⟨hrows, hvalue, hassign, houtcome⟩ := ih h hrest
      exact ⟨hrows, hvalue, hsame ▸ hassign, hsame ▸ houtcome⟩

end Relation

namespace BufferedRelation

variable {b : BufferedRelation} {r : Relation} {vars : List String} {tuples : List (List Key)}

/-! ## In the buffers -/

/-- The assignments that rows stand for, in the order of the rows. -/
def assignments (b : BufferedRelation) : List (String → Key) := b.rows.toList.map b.valueIn

theorem Holds.assignments_eq (h : b.Holds r) : b.assignments = r.assignments := by
  rw [assignments, Relation.assignments, h.rows, Array.toList_map, List.map_map]
  exact List.map_congr_left fun row _ => h.valueIn_ofRow row

/-- Tuples that are all skipped leave the buffers as they are. -/
theorem insertAll_of_skips (h : ∀ keys ∈ tuples, b.skips (vars.zip keys) = true) :
    b.insertAll vars tuples = (.ok (), b) := by
  induction tuples with
  | nil => rfl
  | cons keys rest ih =>
    obtain ⟨hkeys, hrest⟩ := List.forall_mem_cons.mp h
    rw [insertAll, insert, if_pos hkeys]
    exact ih hrest

/-- Tuples that rows carry, if they may have one, leave the buffers as they are. -/
theorem Holds.insertAll_of_carries (h : b.Holds r) (he : r.Exact) (hne : vars ≠ [])
    (hlen : ∀ keys ∈ tuples, keys.length = vars.length)
    (hcarries : ∀ keys ∈ tuples, Relation.Proper vars keys →
      ∃ f ∈ r.assignments, Relation.Carries vars keys f) :
    b.insertAll vars tuples = (.ok (), b) := by
  refine insertAll_of_skips fun keys hkeys => ?_
  rw [h.skips_eq]
  refine Bool.of_not_eq_false fun hskip => ?_
  obtain ⟨hproper, hnone⟩ :=
    (Relation.skips_eq_false_iff he.toIndexed hne (hlen keys hkeys)).mp hskip
  obtain ⟨f, hf, hfs⟩ := hcarries keys hkeys hproper
  exact hnone f hf hfs

/-- An insertion appends a row for each tuple that lacks one, in order, and leaves the rows that
were there.  It fails at the first one for which there is no place, and an insertion that
succeeded changes nothing the second time. -/
theorem Reached.insertAll_appends (h : b.Reached) (hne : vars ≠ [])
    (hlen : ∀ keys ∈ tuples, keys.length = vars.length) :
    let out := b.insertAll vars tuples
    let lacking := Relation.additions vars b.assignments tuples
    (∃ news, out.2.rows = b.rows ++ news ∧
      news.toList.map out.2.valueIn = lacking.take (b.limit - b.rows.size)) ∧
    (∀ row ∈ b.rows, out.2.valueIn row = b.valueIn row) ∧
    (out.1 = if lacking.length ≤ b.limit - b.rows.size then .ok ()
      else .error (.rowLimit b.limit)) ∧
    (out.1 = .ok () → out.2.insertAll vars tuples = (.ok (), out.2)) := by
  obtain ⟨r, hr, he⟩ := h.exists_holds
  obtain ⟨houtcome, hout⟩ := insertAll_spec hr he vars tuples
  obtain ⟨⟨news, hnews⟩, hvalue, hassign, hresult⟩ :=
    Relation.appends_insertAll he.toIndexed hne hlen
  have hsize : b.rows.size = r.size := by rw [hr.rows, Array.size_map, Relation.size]
  simp only [hr.assignments_eq, hr.limit, hsize]
  have hrows : (b.insertAll vars tuples).2.rows = b.rows ++ news.map RowBuffer.ofRow := by
    rw [hout.rows, hnews, Array.map_append, hr.rows]
  have hkept : ∀ row ∈ b.rows,
      (b.insertAll vars tuples).2.valueIn row = b.valueIn row := by
    intro buffer hbuffer
    rw [hr.rows] at hbuffer
    obtain ⟨row, hrow, rfl⟩ := Array.mem_map.mp hbuffer
    rw [hout.valueIn_ofRow, hr.valueIn_ofRow, hvalue row hrow]
  refine ⟨⟨news.map RowBuffer.ofRow, hrows, ?_⟩, hkept, houtcome.trans hresult, fun hok => ?_⟩
  · have hold : b.rows.toList.map (b.insertAll vars tuples).2.valueIn = r.assignments := by
      rw [← hr.assignments_eq]
      exact List.map_congr_left fun row hrow => hkept row (Array.mem_toList_iff.mp hrow)
    rw [← hout.assignments_eq, assignments, hrows, Array.toList_append, List.map_append,
      hold] at hassign
    exact List.append_cancel_left hassign
  · have hroom : (Relation.additions vars r.assignments tuples).length ≤ r.limit - r.size := by
      rw [houtcome, hresult] at hok
      by_contra hover
      rw [if_neg hover] at hok
      cases hok
    rw [List.take_of_length_le hroom] at hassign
    refine hout.insertAll_of_carries (he.insertAll vars tuples) hne hlen fun keys hkeys => ?_
    rw [hassign]
    exact Relation.exists_carries hlen keys hkeys

/-- A relation for three rows, with a row that binds two variables. -/
def narrow : BufferedRelation :=
  ((withLimit ["x", "y"] 3).insertAll ["x", "y"] [[⟨1, 1, 1⟩, ⟨1, 2, 1⟩]]).2

/-- Tuples of one variable: the wider row carries the first, and there is no place for the last. -/
def crowd : List (List Key) :=
  [[⟨1, 1, 1⟩], [⟨1, 3, 1⟩], [Key.empty], [⟨1, 3, 1⟩], [⟨1, 4, 1⟩], [⟨1, 5, 1⟩]]

theorem insertAll_appends_crowd :
    (narrow.insertAll ["x"] crowd).1 = .error (.rowLimit 3) ∧
      (Relation.additions ["x"] narrow.assignments crowd).length = 3 ∧
      ∃ news, (narrow.insertAll ["x"] crowd).2.rows = narrow.rows ++ news ∧
        news.toList.map (narrow.insertAll ["x"] crowd).2.valueIn =
          (Relation.additions ["x"] narrow.assignments crowd).take 2 := by
  have hreached : narrow.Reached := .insertAll (.withLimit ["x", "y"] 3) ["x", "y"] _
  have hlen : ∀ keys ∈ crowd, keys.length = ["x"].length := by decide
  have hroom : narrow.limit - narrow.rows.size = 2 := by decide +kernel
  obtain ⟨hnews, -⟩ := hreached.insertAll_appends (List.cons_ne_nil "x" []) hlen
  rw [hroom] at hnews
  exact ⟨by decide +kernel, by decide +kernel, hnews⟩

end BufferedRelation

end TripleStore
