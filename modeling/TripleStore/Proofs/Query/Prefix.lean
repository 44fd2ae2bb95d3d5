import TripleStore.Proofs.Query.Stop
import TripleStore.Proofs.Relation.Distinct

/-!
# What the first steps of a run leave

A plan records variables before anything is run, and rows bind variables as steps
find them.  Between two steps of a run that has rows left, all rows bind the
variables of the terms so far, each of them and no others, and no two rows are
equal.  All that the plan has recorded by then is among these variables.  So an
operator that was chosen because a variable is recorded finds it bound.

The rows are what the terms allow (`Rows`) and the relation is tidy.  A step keeps
both if it leaves rows, and a run does by induction on its steps.
-/

namespace TripleStore

variable {here : UInt32 × UInt64} {ss : List Statement} {t : Tables}

/-- The rows of a relation are what terms allow, each once. -/
structure TidyRows (ss : List Statement) (ts : List Term) (r : Relation) : Prop
    extends Rows ss ts r where
  /-- The relation is tidy. -/
  tidy : r.Tidy

theorem tidyRows_new (vars : List String) : TidyRows ss [] (.new vars) :=
  ⟨rows_new vars, Relation.tidy_new vars⟩

namespace Cursor

variable {c c' mid : Cursor} {s : Step} {done rest steps : List Step}

/-! ## Parts of a run -/

theorem runSteps_cons (hrun : s.run t c = (.ok (), mid)) (he : mid.relation.isEmpty = false) :
    runSteps t c (s :: steps) = runSteps t mid steps := by
  rw [runSteps, hrun]
  simp [he]

/-- A run that leaves rows goes on after its first step. -/
theorem runSteps_cons_ok (h : runSteps t c (s :: steps) = (.ok (), c'))
    (he : c'.relation.isEmpty = false) :
    ∃ mid, s.run t c = (.ok (), mid) ∧ mid.relation.isEmpty = false ∧
      runSteps t mid steps = (.ok (), c') := by
  rw [runSteps] at h
  split at h
  · next u mid hrun =>
    split at h
    · next hnone =>
      cases h
      rw [hnone] at he
      cases he
    · next hsome => exact ⟨mid, hrun, by simpa using hsome, h⟩
  · cases h

/-- If the first steps leave rows, the rest runs from there. -/
theorem runSteps_append (h : runSteps t c done = (.ok (), mid))
    (he : mid.relation.isEmpty = false) :
    runSteps t c (done ++ rest) = runSteps t mid rest := by
  induction done generalizing c with
  | nil =>
    cases h
    rfl
  | cons s done ih =>
    obtain ⟨c₁, hrun, hleft, hdone⟩ := runSteps_cons_ok h he
    rw [List.cons_append, runSteps_cons hrun hleft, ih hdone]

/-- A run that leaves rows does so with each of its parts. -/
theorem runSteps_append_ok (h : runSteps t c (done ++ rest) = (.ok (), c'))
    (he : c'.relation.isEmpty = false) :
    ∃ mid, runSteps t c done = (.ok (), mid) ∧ (done = [] ∨ mid.relation.isEmpty = false) ∧
      runSteps t mid rest = (.ok (), c') := by
  induction done generalizing c with
  | nil => exact ⟨c, rfl, .inl rfl, h⟩
  | cons s done ih =>
    obtain ⟨c₁, hrun, hleft, hrest⟩ := runSteps_cons_ok h he
    obtain ⟨mid, hdone, hmid, hrest⟩ := ih hrest
    refine ⟨mid, by rw [runSteps_cons hrun hleft, hdone], .inr ?_, hrest⟩
    rcases hmid with rfl | hmid
    · cases hdone
      exact hleft
    · exact hmid

end Cursor

/-! ## Steps that leave rows -/

open Cursor

variable {c c' : Cursor} {ts : List Term} {s : Step} {steps : List Step}

/-- A step that leaves rows leaves those that its term allows too, each once. -/
theorem TidyRows.run (hs : (c.source t).Shows here ss) (h : TidyRows ss ts c.relation)
    (hts : ∀ u ∈ ts, u.Formed here) (hform : s.term.Formed here)
    (hfit : s.operator.Fits (varsOf ts) s.term) (hrun : s.run t c = (.ok (), c'))
    (he : c'.relation.isEmpty = false) :
    c'.source t = c.source t ∧ TidyRows ss (ts ++ [s.term]) c'.relation := by
  obtain ⟨change, hfound, happ, hsource, -⟩ := Step.run_ok hrun
  obtain ⟨change', hfound', hproper, -⟩ := Operator.found_spec hs hform (h.ready hs hts) hfit
  obtain rfl : change' = change := Except.ok.inj (hfound'.symm.trans hfound)
  obtain ⟨hi, hhas⟩ := h.apply hs hts hform hfit hfound happ
  have hallows : ∀ f, c'.relation.Allows f ↔
      Binds f (varsOf (ts ++ [s.term])) ∧ Allowed ss [] (ts ++ [s.term]) f :=
    fun f => (Relation.allows_of_not_isEmpty he).trans (hhas f)
  exact ⟨hsource, ⟨hi, hallows⟩, h.tidy.apply h.even hproper happ⟩

theorem TidyRows.runSteps (hs : (c.source t).Shows here ss) (h : TidyRows ss ts c.relation)
    (hts : ∀ u ∈ ts, u.Formed here) (hform : ∀ x ∈ steps, x.term.Formed here)
    (hfit : Fitted (varsOf ts) steps) (hrun : runSteps t c steps = (.ok (), c'))
    (he : steps = [] ∨ c'.relation.isEmpty = false) :
    c'.source t = c.source t ∧ TidyRows ss (ts ++ steps.map Step.term) c'.relation := by
  induction steps generalizing c ts with
  | nil =>
    cases hrun
    exact ⟨rfl, by simpa using h⟩
  | cons s steps ih =>
    obtain ⟨hsform, hform⟩ := List.forall_mem_cons.mp hform
    have he := he.resolve_left (List.cons_ne_nil s steps)
    obtain ⟨c₁, hstep, hleft, hrest⟩ := runSteps_cons_ok hrun he
    obtain ⟨hsource, h₁⟩ := h.run hs hts hsform hfit.1 hstep hleft
    have hvars : varsOf ts ++ s.term.roleVars = varsOf (ts ++ [s.term]) := by simp [varsOf]
    have hts₁ : ∀ u ∈ ts ++ [s.term], u.Formed here :=
      List.forall_mem_append.mpr ⟨hts, List.forall_mem_singleton.mpr hsform⟩
    obtain ⟨hsource', h'⟩ := ih (hsource ▸ hs) h₁ hts₁ hform (hvars ▸ hfit.2) hrest (.inr he)
    rw [List.append_assoc] at h'
    exact ⟨hsource'.trans hsource, h'⟩

/-! ## Plans -/

namespace Cursor

variable {mid : Cursor} {done rest : List Step} {q : Query} {p : Plan}

theorem fitted_append {bound : List String} : Fitted bound (done ++ rest) ↔
    Fitted bound done ∧ Fitted (bound ++ varsOf (done.map Step.term)) rest := by
  induction done generalizing bound with
  | nil => simp [Fitted, varsOf]
  | cons s done ih => simp [Fitted, ih, varsOf, and_assoc]

theorem execute_eq (hp : c.plan t q = .ok p) :
    c.execute t q = runSteps t (c.withVariables p.vars) p.steps := by
  rw [execute, hp]

/-- The terms of a plan are about the version. -/
theorem formed_of_plan (hname : ∀ u k, c.keyOf t u = .ok k → k = c.nameOf u)
    (hp : c.plan t q = .ok p) :
    ∀ x ∈ p.steps, x.term.Formed (Checksum.ofText c.graph, c.version) := by
  intro x hx
  obtain ⟨pat, -, hr⟩ := (plan_spec hname hp).1 x hx
  exact hr.formed _ fun _ => rfl

/-- The first steps of a plan leave what their terms allow, if they leave rows. -/
theorem tidyRows_of_plan (hs : (c.source t).Shows (Checksum.ofText c.graph, c.version) ss)
    (hname : ∀ u k, c.keyOf t u = .ok k → k = c.nameOf u) (hp : c.plan t q = .ok p)
    (hsplit : p.steps = done ++ rest)
    (hrun : runSteps t (c.withVariables p.vars) done = (.ok (), mid))
    (he : done = [] ∨ mid.relation.isEmpty = false) :
    mid.source t = c.source t ∧ TidyRows ss (done.map Step.term) mid.relation := by
  obtain ⟨-, -, -, hfit⟩ := plan_spec hname hp
  have hform := formed_of_plan hname hp
  rw [hsplit] at hform hfit
  exact TidyRows.runSteps (c := c.withVariables p.vars) hs (tidyRows_new p.vars)
    (List.forall_mem_nil _) (fun x hx => hform x (List.mem_append_left _ hx))
    (fitted_append.mp hfit).1 hrun he

/-- What steps leave when some variables are recorded for them. -/
structure Midway (c : Cursor) (done : List Step) (b : Bindings) : Prop where
  /-- Each row binds the variables of the terms and no others. -/
  binds : ∀ row ∈ c.relation.rows, Binds (c.relation.valueIn row) (varsOf (done.map Step.term))
  /-- No two rows are equal. -/
  nodup : c.relation.rows.toList.Nodup
  /-- No two rows bind the same. -/
  distinct : c.relation.Distinct
  /-- A variable has values if a term has it. -/
  binds_iff : ∀ v, c.relation.binds v = true ↔ v ∈ varsOf (done.map Step.term)
  /-- What is recorded are variables of the terms. -/
  recorded : ∀ v ∈ b, v ∈ varsOf (done.map Step.term)

theorem midway_of_tidyRows {b : Bindings} (hs : (c.source t).Shows here ss)
    (hts : ∀ u ∈ done.map Step.term, u.Formed here)
    (h : TidyRows ss (done.map Step.term) c.relation)
    (hb : Plan.stepsFor ∅ (done.map Step.term) = .ok (done, b)) : c.Midway done b where
  binds row hrow := h.even _ (Relation.allows_of_has ⟨row, hrow, rfl⟩)
  nodup := h.tidy.distinct.nodup_rows
  distinct := h.tidy.distinct
  binds_iff v := (h.ready hs hts).binds_iff
  recorded v hv := by
    obtain ⟨u, hu, hrec, -⟩ := ((Plan.mem_stepsFor hb).mp hv).resolve_left (by simp)
    exact List.mem_flatMap.mpr ⟨u, hu, hrec⟩

/-- The variable that the next operator starts from is recorded. -/
theorem startVar?_recorded {b b' : Bindings} {v : String}
    (h : Plan.stepsFor b ((s :: rest).map Step.term) = .ok (s :: rest, b'))
    (hv : s.operator.startVar? s.term = some v) : v ∈ b := by
  obtain ⟨-, hfit⟩ := Plan.stepsFor_spec (fun v => Std.ExtTreeMap.mem_keys.mpr) h
  exact Std.ExtTreeMap.mem_keys.mp (hfit.1.startVar?_mem hv)

end Cursor

namespace Tables

variable {graph : String} {version : UInt64} {ts : List Triple}

/-- On a version that is stored, the first steps of a plan that leave rows leave no row that binds
less than the variables of their terms, and no row twice.  What the plan has recorded by then is
bound, and so is the variable that the next operator starts from.  The query goes on from there. -/
theorem midway_of_compile (hd : t.dictionary.Sound)
    (hlack : t.store.Lacks (Checksum.ofText graph, version)) (hts : FitsMemory ts)
    (hcompile : (Adjacency.compile graph version ts t.dictionary).isOk = true) :
    ∃ t', t.addVersion graph version ts = (.ok (), t') ∧
      ∀ (c mid : Cursor) (q : Query) (p : Plan) (done rest : List Step), c.graph = graph →
        c.version = version → c.Faithful t' → c.plan t' q = .ok p → p.steps = done ++ rest →
          Cursor.runSteps t' (c.withVariables p.vars) done = (.ok (), mid) →
            mid.relation.isEmpty = false →
              ∃ b, Plan.stepsFor ∅ (done.map Step.term) = .ok (done, b) ∧ mid.Midway done b ∧
                (∀ s ∈ rest.head?, ∀ v, s.operator.startVar? s.term = some v →
                  v ∈ b ∧ mid.relation.binds v = true) ∧
                c.execute t' q = Cursor.runSteps t' mid rest := by
  obtain ⟨t', hadd, hholds⟩ := holds_of_compile hd hlack hts hcompile
  refine ⟨t', hadd, fun c mid q p done rest hgraph hversion hfaithful hp hsplit hrun he => ?_⟩
  subst hgraph hversion
  have hs : (c.source t').Shows (Checksum.ofText c.graph, c.version)
      (statementsIn c.graph c.version ts) := hfaithful.source ▸ hholds.shows
  have hname : ∀ u k, c.keyOf t' u = .ok k → k = c.nameOf u :=
    fun u k hk => hholds.sound.keyFor_eq hk
  obtain ⟨hsource, hrows⟩ := Cursor.tidyRows_of_plan hs hname hp hsplit hrun (.inr he)
  have hsteps := Plan.stepsFor_of_ofQuery hp
  rw [hsplit] at hsteps
  obtain ⟨b, hdone, hrest⟩ := Plan.stepsFor_append hsteps
  have hform : ∀ u ∈ done.map Step.term, u.Formed (Checksum.ofText c.graph, c.version) := by
    intro u hu
    obtain ⟨x, hx, rfl⟩ := List.mem_map.mp hu
    exact Cursor.formed_of_plan hname hp x (hsplit ▸ List.mem_append_left _ hx)
  have hmidway := Cursor.midway_of_tidyRows (hsource ▸ hs) hform hrows hdone
  refine ⟨b, hdone, hmidway, fun s hnext v hv => ?_, ?_⟩
  · obtain ⟨later, rfl⟩ := List.head?_eq_some_iff.mp hnext
    have hmem := Cursor.startVar?_recorded hrest hv
    exact ⟨hmem, (hmidway.binds_iff v).mpr (hmidway.recorded v hmem)⟩
  · rw [Cursor.execute_eq hp, hsplit]
    exact Cursor.runSteps_append hrun he

/-- What leads on to somewhere. -/
def twoHops : Query where
  select := ["?x", "?z"]
  graphs := ["g"]
  version := none
  patterns := [⟨⟨"", "?x"⟩, [⟨⟨"", "p"⟩, .single⟩], ⟨"", "?y"⟩⟩,
    ⟨⟨"", "?y"⟩, [⟨⟨"", "p"⟩, .single⟩], ⟨"", "?z"⟩⟩]

/-- The first of two steps leaves two rows, and the second leaves one of them. -/
theorem midway_of_compile_chain :
    ∃ t', Tables.addVersion default "g" 1 chain = (.ok (), t') ∧
      ∃ p mid b, (Cursor.new "g" 1 ∅).plan t' twoHops = .ok p ∧
        Cursor.runSteps t' ((Cursor.new "g" 1 ∅).withVariables p.vars) (p.steps.take 1) =
          (.ok (), mid) ∧ mid.relation.size = 2 ∧ mid.Midway (p.steps.take 1) b ∧
        (Cursor.new "g" 1 ∅).execute t' twoHops = Cursor.runSteps t' mid (p.steps.drop 1) := by
  have hlack : (default : Tables).store.Lacks (Checksum.ofText "g", 1) := Store.lacks_empty
  obtain ⟨t', hadd, h⟩ := midway_of_compile (t := default) Dictionary.sound_empty hlack
    (by decide : FitsMemory chain) (by decide +kernel)
  obtain rfl : t' = (Tables.addVersion default "g" 1 chain).2 := by rw [hadd]
  have hcompute : ((Cursor.new "g" 1 ∅).plan (Tables.addVersion default "g" 1 chain).2
      twoHops).toOption.map (fun p => (Cursor.runSteps (Tables.addVersion default "g" 1 chain).2
        ((Cursor.new "g" 1 ∅).withVariables p.vars) (p.steps.take 1)).map Except.toOption
          (·.relation.size)) = some (some (), 2) := by decide +kernel
  obtain ⟨p, hp, hfirst⟩ := Option.map_eq_some_iff.mp hcompute
  obtain ⟨hend, hsize⟩ := Prod.mk.inj hfirst
  have hleft : (Cursor.runSteps (Tables.addVersion default "g" 1 chain).2
      ((Cursor.new "g" 1 ∅).withVariables p.vars) (p.steps.take 1)).2.relation.isEmpty = false := by
    rw [Relation.isEmpty, Array.isEmpty_eq_false_iff, ← Array.size_pos_iff]
    exact Nat.lt_of_lt_of_eq Nat.zero_lt_two hsize.symm
  obtain ⟨b, -, hmidway, -, hexec⟩ := h (.new "g" 1 ∅) _ twoHops p (p.steps.take 1)
    (p.steps.drop 1) rfl rfl Cursor.faithful_new (eq_ok_of_toOption hp)
    (List.take_append_drop 1 p.steps).symm (Prod.ext (eq_ok_of_toOption hend) rfl) hleft
  exact ⟨_, hadd, p, _, b, eq_ok_of_toOption hp, Prod.ext (eq_ok_of_toOption hend) rfl, hsize,
    hmidway, hexec⟩

end Tables

end TripleStore
