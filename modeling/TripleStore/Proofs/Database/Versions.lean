import Mathlib.Order.Bounds.Defs
import TripleStore.Proofs.Database.Answer
import TripleStore.Proofs.Database.Failure

/-!
# The versions of a graph

Whatever the clock reads, the versions of a graph ascend.  An insertion that
succeeds takes the reading of the clock, or the time after the latest version if
the clock has not come that far, and one that fails enters no version.  The one
exception is the last time there is, as there is no time after it.

A time is resolved by a search from the latest version backwards.  As the versions
ascend, the first one found is the greatest of those that have come by then.
-/

namespace TripleStore

namespace Database

variable {db db' : Database} {graph g : String} {now v w : UInt64} {d : Dataset}
  {time : Option UInt64} {vs : List UInt64}

/-! ## Versions that are known -/

theorem versions_of_mem (h : g ∈ db.graphs) : db.versions g = .ok (db.versionsOf g) := by
  rw [graphs, Std.ExtTreeMap.mem_keys] at h
  rw [versions, versionsOf, Std.ExtTreeMap.getElem?_eq_some_getElem h]
  rfl

theorem mem_graphs_of_mem_versionsOf (h : v ∈ db.versionsOf g) : g ∈ db.graphs := by
  by_contra hg
  rw [graphs, Std.ExtTreeMap.mem_keys] at hg
  rw [versionsOf, Std.ExtTreeMap.getElem?_eq_none hg] at h
  exact absurd h List.not_mem_nil

/-! ## The greatest of ascending versions -/

/-- The newest version by a time is the first one that has come by then, from the last one on. -/
theorem newestBy_eq_find? (time : Option UInt64) (vs : List UInt64) :
    newestBy time vs = vs.reverse.find? fun v => time.all fun t => v ≤ t := by
  cases time with
  | none =>
    rw [newestBy, List.getLast?_eq_head?_reverse]
    cases vs.reverse <;> simp
  | some t => simp [newestBy]

theorem all_le_iff : (time.all fun t => v ≤ t) = true ↔ ∀ t ∈ time, v ≤ t := by
  cases time with
  | none => simp
  | some t => simp

theorem newestBy_eq_none_iff : newestBy time vs = none ↔ ∀ w ∈ vs, ∃ t ∈ time, t < w := by
  rw [newestBy_eq_find?, List.find?_eq_none]
  simp only [List.mem_reverse, all_le_iff]
  simp

theorem isGreatest_of_newestBy (hvs : vs.Pairwise (· < ·)) (hv : newestBy time vs = some v) :
    IsGreatest {w | w ∈ vs ∧ ∀ t ∈ time, w ≤ t} v := by
  rw [newestBy_eq_find?, List.find?_eq_some_iff_append] at hv
  obtain ⟨hcome, later, earlier, hsplit, hlater⟩ := hv
  have hdescend : (later ++ v :: earlier).Pairwise fun a b => b < a :=
    hsplit ▸ List.pairwise_reverse.mpr hvs
  have hmem : ∀ w, w ∈ vs ↔ w ∈ later ++ v :: earlier := fun w => by
    rw [← hsplit, List.mem_reverse]
  refine ⟨⟨(hmem v).mpr (by simp), all_le_iff.mp hcome⟩, fun w hw => ?_⟩
  rcases List.mem_append.mp ((hmem w).mp hw.1) with hw' | hw'
  · exact absurd (all_le_iff.mpr hw.2) (by simpa using hlater w hw')
  · rcases List.mem_cons.mp hw' with rfl | hw'
    · exact UInt64.le_refl _
    · have hlt := (List.pairwise_cons.mp (List.pairwise_append.mp hdescend).2.1).1 w hw'
      exact UInt64.le_of_lt hlt

/-- Of ascending versions the newest one by a time is the greatest that has come by then. -/
theorem newestBy_eq_some_iff (hvs : vs.Pairwise (· < ·)) :
    newestBy time vs = some v ↔ IsGreatest {w | w ∈ vs ∧ ∀ t ∈ time, w ≤ t} v := by
  refine ⟨isGreatest_of_newestBy hvs, fun hv => ?_⟩
  cases hfound : newestBy time vs with
  | none =>
    obtain ⟨t, ht, hlt⟩ := newestBy_eq_none_iff.mp hfound v hv.1.1
    exact absurd (hv.1.2 t ht) (UInt64.not_le.mpr hlt)
  | some u =>
    have hu := isGreatest_of_newestBy hvs hfound
    rw [UInt64.le_antisymm (hv.2 hu.1) (hu.2 hv.1)]

/-! ## What a time is resolved to -/

theorem resolve_eq_ok_iff : db.resolve g time = .ok v ↔
    newestBy time (db.versionsOf g) = some v := by
  refine ⟨newestBy_of_resolve, fun h => eq_ok_of_toOption ?_⟩
  rw [toOption_resolve, h]

theorem resolve_eq_error_iff : (∃ f, db.resolve g time = .error f) ↔
    ∀ w ∈ db.versionsOf g, ∃ t ∈ time, t < w := by
  rw [← newestBy_eq_none_iff, ← toOption_resolve]
  cases db.resolve g time with
  | error f => exact iff_of_true ⟨f, rfl⟩ rfl
  | ok v => exact iff_of_false nofun nofun

/-- A time is not resolved only for want of a graph or of a version. -/
theorem kind_of_resolve {f : Fault} (h : db.resolve g time = .error f) :
    f.kind = .graphNotFound := by
  rw [resolve, bind_eq_error] at h
  rcases h with h | ⟨vs, -, h⟩
  · rw [versions] at h
    split at h
    · cases h
    · cases h
      rfl
  · split at h
    · cases h
    · cases h
      rfl

/-! ## What an insertion does to the catalogue -/

theorem insert_eq_ok (h : db.insert now graph d = (.ok v, db')) :
    v = db.nextVersion graph now ∧ db'.catalogue = db.catalogue.alter graph fun info =>
      some ((info.getD .empty).addVersion v d.namespaces) := by
  rw [insert] at h
  split at h
  · cases h
  · next held hheld =>
    simp only at h
    split at h
    · cases h
    · cases h
      exact ⟨rfl, rfl⟩

theorem insert_eq_error {f : Fault} (h : db.insert now graph d = (.error f, db')) :
    db'.catalogue = db.catalogue := by
  rw [insert] at h
  split at h
  · cases h
    rfl
  · next held hheld =>
    simp only at h
    split at h
    · cases h
      rfl
    · cases h

/-- An insertion that succeeds appends its version to those of its graph, and does nothing to
other graphs. -/
theorem versions_of_insert_ok (h : db.insert now graph d = (.ok v, db')) :
    db'.versions graph = .ok (db.versionsOf graph ++ [v]) ∧
      ∀ g, g ≠ graph → db'.versions g = db.versions g := by
  obtain ⟨-, hcatalogue⟩ := insert_eq_ok h
  constructor
  · rw [Database.versions, hcatalogue, Std.ExtTreeMap.getElem?_alter_self]
    rfl
  · intro g hg
    have hne : compare graph g ≠ .eq := fun heq =>
      hg (Std.LawfulEqOrd.compare_eq_iff_eq.mp heq).symm
    rw [Database.versions, Database.versions, hcatalogue, Std.ExtTreeMap.getElem?_alter,
      if_neg hne]

/-- An insertion that fails enters no version. -/
theorem versions_of_insert_error {f : Fault} (h : db.insert now graph d = (.error f, db')) :
    db'.versions g = db.versions g := by
  rw [Database.versions, Database.versions, insert_eq_error h]

/-- An insertion leaves the catalogue alone or enters the next version. -/
theorem insert_catalogue (db : Database) (now : UInt64) (graph : String) (d : Dataset) :
    (db.insert now graph d).2.catalogue = db.catalogue ∨
      (db.insert now graph d).2.catalogue = db.catalogue.alter graph fun info =>
        some ((info.getD .empty).addVersion (db.nextVersion graph now) d.namespaces) := by
  obtain ⟨outcome, db', hins⟩ : ∃ outcome db', db.insert now graph d = (outcome, db') :=
    ⟨_, _, rfl⟩
  rw [hins]
  cases outcome with
  | error f => exact .inl (insert_eq_error hins)
  | ok v =>
    obtain ⟨rfl, hcatalogue⟩ := insert_eq_ok hins
    exact .inr hcatalogue

/-! ## Versions that ascend -/

/-- Every graph of the catalogue has versions, and they ascend. -/
structure Dated (db : Database) : Prop where
  /-- There are versions. -/
  ne_nil : ∀ g ∈ db.graphs, db.versionsOf g ≠ []
  /-- They are in the order of time. -/
  ascending : ∀ g, (db.versionsOf g).Pairwise (· < ·)

theorem dated_empty : Dated .empty where
  ne_nil _ hg := by
    rw [graphs, Std.ExtTreeMap.mem_keys] at hg
    exact absurd hg Std.ExtTreeMap.not_mem_empty
  ascending _ := .nil

/-- The next version comes after the latest one, unless that is the last time there is. -/
theorem lt_nextVersion (hlatest : db.latest? graph = some w) (hw : w.toNat + 1 < UInt64.size) :
    w < db.nextVersion graph now := by
  have hsucc : w < w + 1 := by
    rw [UInt64.lt_iff_toNat_lt, UInt64.toNat_add]
    show w.toNat < (w.toNat + 1) % UInt64.size
    rw [Nat.mod_eq_of_lt hw]
    exact Nat.lt_succ_self _
  rw [nextVersion, hlatest]
  show w < if now ≤ w + 1 then w + 1 else now
  split
  · exact hsucc
  · next hnow => exact UInt64.lt_trans hsucc (UInt64.not_le.mp hnow)

/-- One more version comes after all that a graph has. -/
theorem Dated.lt_nextVersion (h : db.Dated)
    (hmax : ∀ v ∈ db.versionsOf graph, v.toNat + 1 < UInt64.size) :
    ∀ w ∈ db.versionsOf graph, w < db.nextVersion graph now := by
  intro w hw
  obtain ⟨last, hlast⟩ : ∃ last, (db.versionsOf graph).getLast? = some last :=
    ⟨_, List.getLast?_eq_some_getLast (List.ne_nil_of_mem hw)⟩
  obtain ⟨earlier, hsplit⟩ := List.getLast?_eq_some_iff.mp hlast
  have hnext : last < db.nextVersion graph now :=
    Database.lt_nextVersion (latest?_eq.trans hlast) (hmax last (List.mem_of_getLast? hlast))
  have hascending := h.ascending graph
  rw [hsplit] at hascending hw
  rcases List.mem_append.mp hw with hw | hw
  · exact UInt64.lt_trans ((List.pairwise_append.mp hascending).2.2 w hw last (by simp)) hnext
  · rw [List.mem_singleton.mp hw]
    exact hnext

/-- An insertion keeps the versions ascending. -/
theorem Dated.insert (h : db.Dated)
    (hmax : ∀ v ∈ db.versionsOf graph, v.toNat + 1 < UInt64.size) :
    (db.insert now graph d).2.Dated := by
  rcases insert_catalogue db now graph d with hsame | halter
  · have hversions : ∀ g, (db.insert now graph d).2.versionsOf g = db.versionsOf g := fun g => by
      rw [versionsOf, versionsOf, hsame]
    refine ⟨fun g hg => ?_, fun g => ?_⟩
    · rw [graphs, hsame] at hg
      rw [hversions]
      exact h.ne_nil g hg
    · rw [hversions]
      exact h.ascending g
  · have hversions := fun g => versionsOf_of_alter (g := g) halter
    refine ⟨fun g hg => ?_, fun g => ?_⟩
    · rw [hversions]
      split
      · simp
      · next hne =>
        refine h.ne_nil g ?_
        rw [graphs, Std.ExtTreeMap.mem_keys, halter, Std.ExtTreeMap.mem_alter] at hg
        rw [graphs, Std.ExtTreeMap.mem_keys]
        simpa [Std.LawfulEqOrd.compare_eq_iff_eq, hne] using hg
    · rw [hversions]
      split
      · next heq =>
        subst heq
        refine List.pairwise_append.mpr ⟨h.ascending graph, List.pairwise_singleton _ _, ?_⟩
        intro w hw u hu
        rw [List.mem_singleton.mp hu]
        exact h.lt_nextVersion hmax w hw
      · exact h.ascending g

/-- An insertion takes no version away. -/
theorem mem_versionsOf_insert (h : v ∈ db.versionsOf g) :
    v ∈ (db.insert now graph d).2.versionsOf g := by
  rcases insert_catalogue db now graph d with hsame | halter
  · rwa [versionsOf, hsame]
  · rw [versionsOf_of_alter halter]
    split
    · exact List.mem_append_left _ h
    · exact h

/-! ## Runs of insertions -/

/-- A database that insertions into the empty one lead to, whatever the clock reads, whatever is
inserted, and whether they succeed or not. -/
inductive Inserted : Database → Prop
  /-- The database without graphs. -/
  | empty : Inserted .empty
  /-- An insertion, which may fail. -/
  | insert {db : Database} (now : UInt64) (graph : String) (d : Dataset) :
    Inserted db → Inserted (db.insert now graph d).2

theorem Inserted.dated (h : Inserted db)
    (hmax : ∀ g, ∀ v ∈ db.versionsOf g, v.toNat + 1 < UInt64.size) : db.Dated := by
  induction h with
  | empty => exact dated_empty
  | insert now graph d _ ih =>
    have hbefore := fun g v hv => hmax g v (mem_versionsOf_insert hv)
    exact (ih hbefore).insert (hbefore graph)

/-- After insertions that do not come to the last time there is, the versions of each graph
ascend.  The next insertion appends the version it answers to those of its graph if it succeeds,
and enters none if it fails.  A time is resolved to the greatest version that has come by then,
and not resolved exactly if the graph is not known or has no such version. -/
theorem versions_ascend_and_resolve (h : Inserted db)
    (hmax : ∀ g ∈ db.graphs, ∀ v ∈ db.versionsOf g, v.toNat + 1 < UInt64.size) :
    (∀ g ∈ db.graphs, ∃ vs, db.versions g = .ok vs ∧ vs ≠ [] ∧ vs.Pairwise (· < ·)) ∧
      (∀ now graph d v db', db.insert now graph d = (.ok v, db') →
        db'.versions graph = .ok (db.versionsOf graph ++ [v]) ∧
          ∀ g, g ≠ graph → db'.versions g = db.versions g) ∧
      (∀ now graph d f db', db.insert now graph d = (.error f, db') →
        ∀ g, db'.versions g = db.versions g) ∧
      (∀ g time v, db.resolve g time = .ok v ↔
        IsGreatest {w | w ∈ db.versionsOf g ∧ ∀ t ∈ time, w ≤ t} v) ∧
      (∀ g time, (∃ f, db.resolve g time = .error f) ↔
        g ∉ db.graphs ∨ ∀ w ∈ db.versionsOf g, ∃ t ∈ time, t < w) ∧
      ∀ g time f, db.resolve g time = .error f → f.kind = .graphNotFound := by
  have hdated : db.Dated := h.dated fun g v hv => hmax g (mem_graphs_of_mem_versionsOf hv) v hv
  refine ⟨fun g hg => ?_, fun _ _ _ _ _ => versions_of_insert_ok,
    fun _ _ _ _ _ hins _ => versions_of_insert_error hins, fun g time v => ?_,
    fun g time => ?_, fun _ _ _ => kind_of_resolve⟩
  · exact ⟨_, versions_of_mem hg, hdated.ne_nil g hg, hdated.ascending g⟩
  · rw [resolve_eq_ok_iff, newestBy_eq_some_iff (hdated.ascending g)]
  · rw [resolve_eq_error_iff]
    refine ⟨.inr, fun hor w hw => ?_⟩
    rcases hor with hg | hlate
    · exact absurd (mem_graphs_of_mem_versionsOf hw) hg
    · exact hlate w hw

/-- A database with an insertion that fails, one for which the clock has been turned back, and one
into another graph at time zero. -/
def unsteady : Database :=
  (((chained.insert 5 "g" clashing).2.insert 0 "g" closing).2.insert 0 "h" closing).2

theorem inserted_unsteady : Inserted unsteady :=
  .insert 0 "h" closing (.insert 0 "g" closing (.insert 5 "g" clashing
    (.insert 1 "g" (.ofTriples Tables.chain) .empty)))

theorem versions_ascend_and_resolve_unsteady :
    (∀ g ∈ unsteady.graphs, ∀ v ∈ unsteady.versionsOf g, v.toNat + 1 < UInt64.size) ∧
      unsteady.versionsOf "g" = [1, 2] ∧ unsteady.versionsOf "h" = [0] ∧
      (∃ vs, unsteady.versions "g" = .ok vs ∧ vs ≠ [] ∧ vs.Pairwise (· < ·)) ∧
      IsGreatest {w | w ∈ unsteady.versionsOf "g" ∧ ∀ t ∈ some 1, w ≤ t} 1 ∧
      ∃ f, unsteady.resolve "g" (some 0) = .error f ∧ f.kind = .graphNotFound := by
  have hgraphs : unsteady.graphs = ["g", "h"] ∧ unsteady.versionsOf "g" = [1, 2] ∧
      unsteady.versionsOf "h" = [0] := by decide +kernel
  obtain ⟨hgraphs, hg, hh⟩ := hgraphs
  have hmax : ∀ g ∈ unsteady.graphs, ∀ v ∈ unsteady.versionsOf g, v.toNat + 1 < UInt64.size := by
    simp only [hgraphs, List.forall_mem_cons, hg, hh, List.not_mem_nil, false_imp_iff, implies_true]
    decide
  have hresolve : unsteady.resolve "g" (some 1) = .ok 1 :=
    resolve_eq_ok_iff.mpr (by rw [hg]; decide)
  obtain ⟨hascend, -, -, hok, herror, hkind⟩ :=
    versions_ascend_and_resolve inserted_unsteady hmax
  have hlate : ∀ w ∈ unsteady.versionsOf "g", ∃ t ∈ some 0, t < w := by simp [hg]
  obtain ⟨f, hf⟩ := (herror "g" (some 0)).mpr (.inr hlate)
  exact ⟨hmax, hg, hh, hascend "g" (by rw [hgraphs]; decide), (hok "g" (some 1) 1).mp hresolve,
    f, hf, hkind _ _ _ hf⟩

end Database

end TripleStore
