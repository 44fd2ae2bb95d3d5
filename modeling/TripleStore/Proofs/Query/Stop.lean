import TripleStore.Proofs.Query.Answer

/-!
# Stopping early

A query stops at the first step that leaves no row.  This is not only a matter of
speed.  Rows that are all gone look like rows of which nothing is known yet, so a
step that is run after that takes what it finds for an answer.

What running all steps leaves is therefore what the terms behind the last such
step allow on their own.  Steps that start from the values of a variable are
safe, as there are no values to start from.  All others can bring rows back.
-/

namespace TripleStore

namespace Relation

variable {r : Relation}

theorem isEmpty_of_not_has (h : ∀ f, ¬ r.Has f) : r.isEmpty = true := by
  cases he : r.isEmpty with
  | true => rfl
  | false =>
    obtain ⟨f, hf⟩ := r.exists_allowed
    exact absurd ((allows_of_not_isEmpty he).mp hf) (h f)

end Relation

/-! ## Steps that start from a variable -/

namespace Operator

/-- The variable from whose values an operator starts. -/
def startVar? : Operator → Term → Option String
  | subjectsOfBound, t => t.object.var?
  | objectsOfBound, t => t.subject.var?
  | tripleFromSubject, t => t.subject.var?
  | tripleFromObject, t => t.object.var?
  | tripleFromPredicate, t => t.link.var?
  | _, _ => none

variable {op : Operator} {t : Term} {bound bound' : List String} {r : Relation} {src : Source}

/-- An operator fits whatever is bound, but for the variable it starts from. -/
theorem Fits.of_startVar? (h : op.Fits bound t) (hv : ∀ v, op.startVar? t = some v → v ∈ bound') :
    op.Fits bound' t := by
  cases h with
  | check s o segs p => exact .check s o segs p
  | subjects s o segs p => exact .subjects s o segs p
  | objects s o segs p => exact .objects s o segs p
  | predicates s o q p => exact .predicates s o q p
  | ends s o segs p => exact .ends s o segs p
  | subjectsOfBound s o segs p _ => exact .subjectsOfBound s o segs p (hv o rfl)
  | objectsOfBound s o segs p _ => exact .objectsOfBound s o segs p (hv s rfl)
  | statementsInto s q o p => exact .statementsInto s q o p
  | statementsFrom s q o p => exact .statementsFrom s q o p
  | tripleFromSubject s q o p _ => exact .tripleFromSubject s q o p (hv s rfl)
  | tripleFromObject s q o p _ => exact .tripleFromObject s q o p (hv o rfl)
  | tripleFromPredicate s q o p _ => exact .tripleFromPredicate s q o p (hv q rfl)

theorem Fits.startVar?_mem (h : op.Fits bound t) {v : String} (hv : op.startVar? t = some v) :
    v ∈ bound := by
  cases h with
  | subjectsOfBound s o segs p ho => exact Option.some.inj hv ▸ ho
  | objectsOfBound s o segs p hs => exact Option.some.inj hv ▸ hs
  | tripleFromSubject s q o p hs => exact Option.some.inj hv ▸ hs
  | tripleFromObject s q o p ho => exact Option.some.inj hv ▸ ho
  | tripleFromPredicate s q o p hq => exact Option.some.inj hv ▸ hq
  | _ => cases hv

/-- An operator that starts from a variable without values finds nothing. -/
theorem Fits.found_of_no_value (h : op.Fits bound t) {v : String} (hv : op.startVar? t = some v)
    (hr : r.valuesFor v = ∅) : ∃ vars, vars ≠ [] ∧
      (op.found t r).answer src = .ok (.tuples vars []) := by
  have hlist : (r.valuesFor v).toList = [] := by
    rw [hr]
    rfl
  have hpairs : ∀ (walk : List Key → Reading (List (Key × Key))) (vars : List String) {ks : List Key},
      (walk []).answer src = .ok [] → ks = [] → (walk ks >>= fun ps =>
        pure (Relation.Change.tuples vars (tuplesOf ps))).answer src = .ok (.tuples vars []) := by
    rintro walk vars - hwalk rfl
    exact answer_bind_pure (fun ps => Relation.Change.tuples vars (tuplesOf ps)) hwalk
  have haround : ∀ (statements : Key → Reading (List (List Key))) (vars : List String)
      {ks : List Key}, ks = [] → (around statements ks >>= fun rows =>
        pure (Relation.Change.tuples vars rows)).answer src = .ok (.tuples vars []) := by
    rintro statements vars - rfl
    rfl
  cases h with
  | subjectsOfBound s o segs p _ =>
    obtain rfl := Option.some.inj hv
    exact ⟨[s, o], by simp, hpairs (pairsInto segs) _ rfl hlist⟩
  | objectsOfBound s o segs p _ =>
    obtain rfl := Option.some.inj hv
    exact ⟨[s, o], by simp, hpairs (Reading.pairsFrom segs) _ rfl hlist⟩
  | tripleFromSubject s q o p _ =>
    obtain rfl := Option.some.inj hv
    exact ⟨[s, q, o], by simp, haround _ _ hlist⟩
  | tripleFromObject s q o p _ =>
    obtain rfl := Option.some.inj hv
    exact ⟨[s, q, o], by simp, haround _ _ hlist⟩
  | tripleFromPredicate s q o p _ =>
    obtain rfl := Option.some.inj hv
    exact ⟨[s, q, o], by simp, haround _ _ hlist⟩
  | _ => cases hv

end Operator

/-! ## One step -/

variable {here : UInt32 × UInt64} {ss : List Statement} {t : Tables}

/-- A step on rows that do not bind the variable it starts from leaves no rows. -/
theorem Rows.isEmpty_of_apply {src : Source} {ts : List Term} {u : Term} {op : Operator}
    {bound : List String} {r r' : Relation} {change : Relation.Change} {v : String}
    (h : Rows ss ts r) (hfit : op.Fits bound u) (hv : op.startVar? u = some v)
    (hn : v ∉ varsOf ts) (hfound : (op.found u r).answer src = .ok change)
    (happ : r.apply change = (.ok (), r')) : r'.Indexed ∧ r'.isEmpty = true := by
  have heven : r.Even (varsOf ts) := fun f hf => ((h.allows f).mp hf).1
  have hnone : r.valuesFor v = ∅ := by
    refine Std.ExtTreeSet.ext_mem fun k => iff_of_false (fun hk => ?_) (by simp)
    obtain ⟨hne, row, hrow, rfl⟩ := h.indexed.mem_valuesFor.mp hk
    exact hn ((heven _ (Relation.allows_of_has ⟨row, hrow, rfl⟩) v).mp hne)
  obtain ⟨vars, hvars, hchange⟩ : ∃ vars, vars ≠ [] ∧
      (op.found u r).answer src = .ok (.tuples vars []) := hfit.found_of_no_value hv hnone
  cases hfound.symm.trans hchange
  have hproper : (Relation.Change.tuples vars []).Proper := ⟨hvars, by simp⟩
  obtain ⟨hi, hhas⟩ := Relation.apply_spec h.indexed heven hproper happ
  refine ⟨hi, Relation.isEmpty_of_not_has fun f hf => ?_⟩
  obtain ⟨_, b, -, hb, -⟩ := (hhas f).mp hf
  exact absurd hb.2 (by simp)

/-- What a step that succeeds leaves.  Either all variables it starts from are bound, and the rows
are what its term allows too, or it leaves no rows. -/
theorem Rows.run {c c' : Cursor} {ts : List Term} {s : Step} {bound : List String}
    (hs : (c.source t).Shows here ss) (h : Rows ss ts c.relation) (hts : ∀ u ∈ ts, u.Formed here)
    (hform : s.term.Formed here) (hfit : s.operator.Fits bound s.term)
    (hrun : s.run t c = (.ok (), c')) :
    c'.source t = c.source t ∧ c'.relation.Indexed ∧
      (c'.relation.isEmpty = true ∨ s.operator.Fits (varsOf ts) s.term ∧
        ∀ f, c'.relation.Has f ↔
          Binds f (varsOf (ts ++ [s.term])) ∧ Allowed ss [] (ts ++ [s.term]) f) := by
  obtain ⟨change, hfound, happ, hsource, -⟩ := Step.run_ok hrun
  by_cases hstart : ∃ v, s.operator.startVar? s.term = some v ∧ v ∉ varsOf ts
  · obtain ⟨v, hv, hn⟩ := hstart
    obtain ⟨hi, he⟩ := h.isEmpty_of_apply hfit hv hn hfound happ
    exact ⟨hsource, hi, .inl he⟩
  · have hfit' : s.operator.Fits (varsOf ts) s.term :=
      hfit.of_startVar? fun v hv => by_contra fun hn => hstart ⟨v, hv, hn⟩
    obtain ⟨hi, hhas⟩ := h.apply hs hts hform hfit' hfound happ
    exact ⟨hsource, hi, .inr ⟨hfit', hhas⟩⟩

/-! ## All steps -/

namespace Cursor

/-- Run steps, whatever they leave. -/
def runAll (t : Tables) : Cursor → List Step → Except Fault Unit × Cursor
  | c, [] => (.ok (), c)
  | c, s :: ss =>
    match s.run t c with
    | (.ok _, c) => runAll t c ss
    | (.error e, c) => (.error e, c)

variable {c full : Cursor} {steps : List Step}

theorem runAll_cons_eq_ok {s : Step} : runAll t c (s :: steps) = (.ok (), full) ↔
    ∃ c₁, s.run t c = (.ok (), c₁) ∧ runAll t c₁ steps = (.ok (), full) := by
  rw [runAll]
  split
  · next u c₁ hrun => simp [hrun]
  · next e c₁ hrun => simp [hrun]

/-- Stopping early leaves no rows, or as many as running all steps does if each step leaves
some. -/
theorem runSteps_of_runAll (h : runAll t c steps = (.ok (), full)) :
    ∃ early, runSteps t c steps = (.ok (), early) ∧
      (early.relation.isEmpty = true ∨ early = full ∧ ∀ lost rest mid, steps = lost ++ rest →
        lost ≠ [] → runAll t c lost = (.ok (), mid) → mid.relation.isEmpty = false) := by
  induction steps generalizing c with
  | nil =>
    cases h
    refine ⟨full, rfl, .inr ⟨rfl, fun lost rest mid hsplit hne => ?_⟩⟩
    exact absurd (List.append_eq_nil_iff.mp hsplit.symm).1 hne
  | cons s steps ih =>
    obtain ⟨c₁, hrun, hrest⟩ := runAll_cons_eq_ok.mp h
    rw [runSteps, hrun]
    simp only
    cases he : c₁.relation.isEmpty with
    | true => exact ⟨c₁, by simp, .inl he⟩
    | false =>
      obtain ⟨early, hearly, hend⟩ := ih hrest
      refine ⟨early, by simpa using hearly, hend.imp_right ?_⟩
      rintro ⟨rfl, hall⟩
      refine ⟨rfl, fun lost rest mid hsplit hne hmid => ?_⟩
      cases lost with
      | nil => exact absurd rfl hne
      | cons s' lost =>
        obtain ⟨rfl, htail⟩ := List.cons.inj hsplit
        obtain ⟨c₂, hrun', hmid⟩ := runAll_cons_eq_ok.mp hmid
        cases hrun.symm.trans hrun'
        cases lost with
        | nil =>
          cases hmid
          exact he
        | cons s'' lost => exact hall _ rest mid htail (by simp) hmid

/-- A step that starts from no variable brings rows back after all were gone.  The rows are what
its term and those after it allow on their own. -/
structure Revives (t : Tables) (ss : List Statement) (c : Cursor) (steps : List Step)
    (full : Cursor) (lost : List Step) (s : Step) (rest : List Step) : Prop where
  /-- The steps before it, itself, and those after it. -/
  split : steps = lost ++ s :: rest
  /-- There are steps before it, which leave no rows. -/
  gone : lost ≠ [] ∧ ∃ mid, runAll t c lost = (.ok (), mid) ∧ mid.relation.isEmpty = true
  /-- It does not start from a variable. -/
  fresh : s.operator.startVar? s.term = none
  /-- The rows are what the terms from there on allow. -/
  rows : ∀ f, full.relation.Has f ↔ Binds f (varsOf ((s :: rest).map Step.term)) ∧
    Allowed ss [] ((s :: rest).map Step.term) f

theorem Revives.cons {c₁ : Cursor} {x s : Step} {lost rest : List Step}
    (h : Revives t ss c₁ steps full lost s rest) (hrun : x.run t c = (.ok (), c₁)) :
    Revives t ss c (x :: steps) full (x :: lost) s rest := by
  obtain ⟨hsplit, ⟨-, mid, hmid, he⟩, hfresh, hrows⟩ := h
  refine ⟨by rw [hsplit]; rfl, ⟨by simp, mid, ?_, he⟩, hfresh, hrows⟩
  exact runAll_cons_eq_ok.mpr ⟨c₁, hrun, hmid⟩

/-- What running all steps leaves: what all terms allow, or no rows, or rows that a step brought
back. -/
theorem runAll_rows {ts : List Term} {bound : List String} {s : Step}
    (hs : (c.source t).Shows here ss) (h : Rows ss ts c.relation) (hts : ∀ u ∈ ts, u.Formed here)
    (hform : ∀ x ∈ s :: steps, x.term.Formed here) (hfit : Fitted bound (s :: steps))
    (hrun : runAll t c (s :: steps) = (.ok (), full)) :
    full.relation.isEmpty = true ∨
      (s.operator.Fits (varsOf ts) s.term ∧ ∀ f, full.relation.Has f ↔
        Binds f (varsOf (ts ++ (s :: steps).map Step.term)) ∧
          Allowed ss [] (ts ++ (s :: steps).map Step.term) f) ∨
      ∃ lost s' rest, Revives t ss c (s :: steps) full lost s' rest := by
  induction steps generalizing c s ts bound with
  | nil =>
    obtain ⟨c₁, hstep, hrest⟩ := runAll_cons_eq_ok.mp hrun
    cases hrest
    obtain ⟨-, -, he | hrows⟩ :=
      h.run hs hts (hform s List.mem_cons_self) hfit.1 hstep
    · exact .inl he
    · exact .inr (.inl hrows)
  | cons s' steps ih =>
    obtain ⟨c₁, hstep, hrest⟩ := runAll_cons_eq_ok.mp hrun
    obtain ⟨hsource, hi, hleft⟩ := h.run hs hts (hform s List.mem_cons_self) hfit.1 hstep
    have hform' : ∀ x ∈ s' :: steps, x.term.Formed here :=
      fun x hx => hform x (List.mem_cons_of_mem _ hx)
    cases he : c₁.relation.isEmpty with
    | true =>
      -- nothing is known any more, so the rest runs as if it were the whole query
      rcases ih (hsource ▸ hs) (rows_of_isEmpty hi he) (List.forall_mem_nil _) hform' hfit.2 hrest
        with hnone | ⟨hfits, hrows⟩ | ⟨lost, x, rest, hrevives⟩
      · exact .inl hnone
      · refine .inr (.inr ⟨[s], s', steps, rfl, ⟨by simp, c₁, ?_, he⟩, ?_, hrows⟩)
        · exact runAll_cons_eq_ok.mpr ⟨c₁, hstep, rfl⟩
        · cases hstart : s'.operator.startVar? s'.term with
          | none => rfl
          | some v => exact absurd (hfits.startVar?_mem hstart) (by simp [varsOf])
      · exact .inr (.inr ⟨s :: lost, x, rest, hrevives.cons hstep⟩)
    | false =>
      obtain ⟨hfits, hhas⟩ := hleft.resolve_left (by simp [he])
      have hrows : Rows ss (ts ++ [s.term]) c₁.relation :=
        ⟨hi, fun f => (Relation.allows_of_not_isEmpty he).trans (hhas f)⟩
      have hts' : ∀ u ∈ ts ++ [s.term], u.Formed here := by
        intro u hu
        rcases List.mem_append.mp hu with hu | hu
        · exact hts u hu
        · exact List.mem_singleton.mp hu ▸ hform s List.mem_cons_self
      rcases ih (hsource ▸ hs) hrows hts' hform' hfit.2 hrest
        with hnone | ⟨-, hrows⟩ | ⟨lost, x, rest, hrevives⟩
      · exact .inl hnone
      · refine .inr (.inl ⟨hfits, fun f => ?_⟩)
        rw [List.append_assoc] at hrows
        exact hrows f
      · exact .inr (.inr ⟨s :: lost, x, rest, hrevives.cons hstep⟩)

/-! ## Queries -/

variable {q : Query}

theorem keyRows_congr {c c' : Cursor} (h : ∀ f, c'.relation.Has f ↔ c.relation.Has f)
    {vars : List String} {row : List Key} : row ∈ c'.keyRows vars ↔ row ∈ c.keyRows vars := by
  rw [keyRows, keyRows, Relation.mem_project, Relation.mem_project]
  simp only [h]

/-- Running all steps of a plan leaves the rows that the query leaves, or rows that a step
brought back. -/
theorem execute_of_runAll (hs : (c.source t).Shows (Checksum.ofText c.graph, c.version) ss)
    (hname : ∀ u k, c.keyOf t u = .ok k → k = c.nameOf u) {p : Plan} (hp : c.plan t q = .ok p)
    (hrun : runAll t (c.withVariables p.vars) p.steps = (.ok (), full)) :
    ∃ early, c.execute t q = (.ok (), early) ∧
      ((∀ vars row, row ∈ full.keyRows vars ↔ row ∈ early.keyRows vars) ∨
        early.relation.isEmpty = true ∧
          ∃ lost s rest, Revives t ss (c.withVariables p.vars) p.steps full lost s rest) := by
  obtain ⟨hread, -, hne, hfit⟩ := plan_spec hname hp
  have hform : ∀ x ∈ p.steps, x.term.Formed (Checksum.ofText c.graph, c.version) := by
    intro x hx
    obtain ⟨pat, -, hr⟩ := hread x hx
    exact hr.formed _ fun _ => rfl
  have hnone : ∀ u ∈ ([] : List Term), u.Formed (Checksum.ofText c.graph, c.version) :=
    List.forall_mem_nil _
  have hs : ((c.withVariables p.vars).source t).Shows _ ss := hs
  obtain ⟨early, hearly, hend⟩ := runSteps_of_runAll hrun
  refine ⟨early, by rw [execute, hp]; exact hearly, ?_⟩
  obtain ⟨s, steps, hsteps⟩ := List.exists_cons_of_ne_nil hne
  rw [hsteps] at hrun hearly hend hform hfit ⊢
  obtain ⟨-, hhas⟩ := runSteps_spec hs (rows_new p.vars) hnone hform hfit hearly
  rcases runAll_rows hs (rows_new p.vars) hnone hform hfit hrun
    with he | ⟨-, hrows⟩ | ⟨lost, x, rest, hrevives⟩
  · refine .inl fun vars row => keyRows_congr fun f => ?_
    rcases hend with he' | ⟨rfl, -⟩
    · exact iff_of_false (Relation.not_has_of_isEmpty he) (Relation.not_has_of_isEmpty he')
    · exact Iff.rfl
  · exact .inl fun vars row => keyRows_congr fun f => (hrows f).trans (hhas f).symm
  · refine .inr ⟨?_, lost, x, rest, hrevives⟩
    obtain ⟨hne', mid, hmid, he⟩ := hrevives.gone
    rcases hend with he' | ⟨-, hall⟩
    · exact he'
    · rw [hall lost _ mid hrevives.split hne' hmid] at he
      cases he

/-- Whether a plan runs to its end, and what that leaves, can be computed. -/
theorem exists_runAll (rows : List (List Key))
    (h : (c.plan t q).toOption.map (fun p => (runAll t (c.withVariables p.vars) p.steps).map
      Except.toOption (keyRows · q.select)) = some (some (), rows)) :
    ∃ p full, c.plan t q = .ok p ∧ runAll t (c.withVariables p.vars) p.steps = (.ok (), full) ∧
      full.keyRows q.select = rows := by
  obtain ⟨p, hp, hrun⟩ := Option.map_eq_some_iff.mp h
  obtain ⟨hend, hrows⟩ := Prod.mk.inj hrun
  exact ⟨p, _, eq_ok_of_toOption hp, Prod.ext (eq_ok_of_toOption hend) rfl, hrows⟩

end Cursor

namespace Tables

variable {graph : String} {version : UInt64} {ts : List Triple}

/-- On a version that is stored, running all steps of a plan leaves the rows that the query
leaves, unless a step that starts from no variable comes after one that left no rows, and brings
rows back. -/
theorem keyRows_runAll_of_compile (hd : t.dictionary.Sound)
    (hlack : t.store.Lacks (Checksum.ofText graph, version)) (hts : FitsMemory ts)
    (hcompile : (Adjacency.compile graph version ts t.dictionary).isOk = true) :
    ∃ t', t.addVersion graph version ts = (.ok (), t') ∧
      ∀ (c full : Cursor) (q : Query) (p : Plan), c.graph = graph → c.version = version →
        c.Faithful t' → c.plan t' q = .ok p →
          Cursor.runAll t' (c.withVariables p.vars) p.steps = (.ok (), full) →
            ∃ early, c.execute t' q = (.ok (), early) ∧
              ((∀ vars row, row ∈ full.keyRows vars ↔ row ∈ early.keyRows vars) ∨
                early.relation.isEmpty = true ∧ ∃ lost s rest, Cursor.Revives t'
                  (statementsIn graph version ts) (c.withVariables p.vars) p.steps full lost s
                    rest) := by
  cases hc : Adjacency.compile graph version ts t.dictionary with
  | error f =>
    rw [hc] at hcompile
    cases hcompile
  | ok compiled =>
    obtain ⟨t', hadd, hstores⟩ := addVersion_of_compile hd hts hc
    have hholds := hstores.holds hlack
    refine ⟨t', hadd, fun c full q p hgraph hversion hfaithful hp hrun => ?_⟩
    subst hgraph hversion
    have hs : (c.source t').Shows (Checksum.ofText c.graph, c.version)
        (statementsIn c.graph c.version ts) := hfaithful.source ▸ hholds.shows
    exact Cursor.execute_of_runAll hs (fun u k hk => hholds.sound.keyFor_eq hk) hp hrun

theorem keyRows_runAll_of_compile_chain :
    ∃ t', Tables.addVersion default "g" 1 chain = (.ok (), t') ∧
      ∃ p full early, (Cursor.new "g" 1 ∅).plan t' fromStart = .ok p ∧
        Cursor.runAll t' ((Cursor.new "g" 1 ∅).withVariables p.vars) p.steps = (.ok (), full) ∧
        (Cursor.new "g" 1 ∅).execute t' fromStart = (.ok (), early) ∧
        early.relation.isEmpty = false ∧
        ∀ vars row, row ∈ full.keyRows vars ↔ row ∈ early.keyRows vars := by
  have hlack : (default : Tables).store.Lacks (Checksum.ofText "g", 1) := by
    intro k _
    rfl
  obtain ⟨t', hadd, h⟩ := keyRows_runAll_of_compile (t := default) Dictionary.sound_empty hlack
    (by decide : FitsMemory chain) (by decide +kernel)
  obtain rfl : t' = (Tables.addVersion default "g" 1 chain).2 := by rw [hadd]
  have hleft : ((Cursor.new "g" 1 ∅).execute (Tables.addVersion default "g" 1 chain).2
      fromStart).2.relation.isEmpty = false := by decide +kernel
  obtain ⟨p, full, hp, hrun, -⟩ := Cursor.exists_runAll (c := .new "g" 1 ∅)
    (t := (Tables.addVersion default "g" 1 chain).2) (q := fromStart)
    [[.ofUri "g" ⟨"", "c"⟩ 1], [.ofUri "g" ⟨"", "b"⟩ 1]] (by decide +kernel)
  obtain ⟨early, hearly, hend⟩ := h _ _ _ p rfl rfl Cursor.faithful_new hp hrun
  rw [hearly] at hleft
  refine ⟨_, hadd, p, full, early, hp, hrun, hearly, hleft, ?_⟩
  rcases hend with hsame | ⟨he, -⟩
  · exact hsame
  · rw [he] at hleft
    cases hleft

/-- What leads to `x` and to `y`, where a statement leads to `y` alone. -/
def toBoth : Query where
  select := ["?s"]
  graphs := ["g"]
  version := none
  patterns := [⟨⟨"", "?s"⟩, [⟨⟨"", "p"⟩, .single⟩], ⟨"", "x"⟩⟩,
    ⟨⟨"", "?s"⟩, [⟨⟨"", "p"⟩, .single⟩], ⟨"", "y"⟩⟩]

/-- A query without answers, for which running all steps leaves a row. -/
theorem rows_come_back :
    ∃ t', Tables.addVersion default "g" 1 [⟨⟨"", "x"⟩, ⟨"", "p"⟩, ⟨"", "y"⟩⟩] = (.ok (), t') ∧
      ∃ p full early, (Cursor.new "g" 1 ∅).plan t' toBoth = .ok p ∧
        Cursor.runAll t' ((Cursor.new "g" 1 ∅).withVariables p.vars) p.steps = (.ok (), full) ∧
        (Cursor.new "g" 1 ∅).execute t' toBoth = (.ok (), early) ∧
        early.keyRows ["?s"] = [] ∧ full.keyRows ["?s"] = [[.ofUri "g" ⟨"", "x"⟩ 1]] := by
  obtain ⟨t', ht'⟩ : ∃ t', t' =
    (Tables.addVersion default "g" 1 [⟨⟨"", "x"⟩, ⟨"", "p"⟩, ⟨"", "y"⟩⟩]).2 := ⟨_, rfl⟩
  have hadd : (Tables.addVersion default "g" 1 [⟨⟨"", "x"⟩, ⟨"", "p"⟩, ⟨"", "y"⟩⟩]).1 = .ok () :=
    eq_ok_of_toOption (by decide +kernel)
  have hearly : ((Cursor.new "g" 1 ∅).execute t' toBoth).1 = .ok () ∧
      ((Cursor.new "g" 1 ∅).execute t' toBoth).2.keyRows ["?s"] = [] := by
    subst ht'
    exact ⟨eq_ok_of_toOption (by decide +kernel), by decide +kernel⟩
  obtain ⟨p, full, hp, hrun, hrows⟩ := Cursor.exists_runAll (c := .new "g" 1 ∅) (t := t')
    (q := toBoth) [[.ofUri "g" ⟨"", "x"⟩ 1]] (by subst ht'; decide +kernel)
  exact ⟨t', Prod.ext hadd ht'.symm, p, full, _, hp, hrun, Prod.ext hearly.1 rfl, hearly.2, hrows⟩

end Tables

end TripleStore
