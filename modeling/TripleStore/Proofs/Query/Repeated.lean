import TripleStore.Proofs.Query.Choice
import TripleStore.Proofs.Query.Prefix
import TripleStore.Proofs.Relation.Repeated

/-!
# Steps that are run again

When a query is through and has rows left, its steps have nothing more to say.  A step
that is run again starts from the rows that are left and may take another way than the
first time: a path that was walked from its starts is now walked from the values of its
ends, and what was inserted is now joined.

It finds a part of each row, as each row is what the term allows.  It finds no more than
it did the first time, as rows have only lost values since (`Narrows`), so what it finds
fits a relation as it did before.  By `Tidy.apply_eq_self` the relation stays as it is.
-/

namespace TripleStore

open Reading

variable {here : UInt32 × UInt64} {ss : List Statement} {src : Source} {r r₁ : Relation}

/-! ## Rows that have lost values -/

/-- Variables that were bound are bound still, and have no values that they did not have. -/
structure Relation.Narrows (r r₁ : Relation) : Prop where
  /-- What was bound is bound. -/
  binds : ∀ v, r₁.binds v = true → r.binds v = true
  /-- The values were there. -/
  values : ∀ v, r₁.binds v = true → ∀ k ∈ r.valuesFor v, k ∈ r₁.valuesFor v

/-- More terms leave fewer values. -/
theorem Rows.narrows {ts us : List Term} (h₁ : Rows ss ts r₁) (h : Rows ss (ts ++ us) r) :
    r.Narrows r₁ := by
  have hvars : ∀ v ∈ varsOf ts, v ∈ varsOf (ts ++ us) := by simp +contextual
  refine ⟨fun v hv => ?_, fun v hv k hk => ?_⟩
  · exact (h.even.binds_iff h.indexed).mpr (hvars v ((h₁.even.binds_iff h₁.indexed).mp hv))
  · have hmem := (h₁.even.binds_iff h₁.indexed).mp hv
    obtain ⟨-, row, hrow, rfl⟩ := h.indexed.mem_valuesFor.mp hk
    obtain ⟨hbinds, hall⟩ := (h.allows _).mp (Relation.allows_of_has ⟨row, hrow, rfl⟩)
    have ha := h₁.allows_restrict (fun v hv => (hbinds v).mpr (hvars v hv))
      (allowed_append.mp hall).1
    rw [← restrict_of_mem (f := r.valueIn row) hmem]
    exact h₁.even.mem_valuesFor h₁.indexed ha hmem

namespace Operator

variable {op : Operator} {t : Term} {bound bound₁ : List String}
  {change change₁ : Relation.Change} {b : String → Key}

/-- Keys of rows are keys of a place that is shown. -/
theorem Ready.places (h : Ready here bound r) (hs : src.Shows here ss) :
    ∀ v, ∀ k ∈ r.valuesFor v, src.Places k := by
  intro v k hk
  have hplace := h.place_of_mem k (Std.ExtTreeSet.mem_toList.mpr hk)
  exact ⟨ss, hplace ▸ hs⟩

/-! ## Finding no more than before -/

theorem Pivots.narrow (h : op.Pivots r₁ t) (hn : r.Narrows r₁) : op.Pivots r t := by
  cases h with
  | ends s o segs p h => exact .ends s o segs p (h.imp (hn.binds s) (hn.binds o))
  | subjectsOfBound s o segs p h => exact .subjectsOfBound s o segs p (hn.binds o h)
  | objectsOfBound s o segs p h => exact .objectsOfBound s o segs p (hn.binds s h)
  | tripleFromSubject s q o p h => exact .tripleFromSubject s q o p (hn.binds s h)
  | tripleFromObject s q o p h => exact .tripleFromObject s q o p (hn.binds o h)
  | tripleFromPredicate s q o p h => exact .tripleFromPredicate s q o p (hn.binds q h)

theorem pivots_narrow (hn : r.Narrows r₁) : ∀ v ∈ op.pivots t r₁, v ∈ op.pivots t r := by
  intro v hv
  cases op with
  | ends =>
    obtain ⟨hrole, hbinds⟩ := List.mem_filter.mp hv
    exact List.mem_filter.mpr ⟨hrole, hn.binds v hbinds⟩
  | _ => exact hv

/-- From fewer values no more is found. -/
theorem Pivots.allows_of_narrows (h : op.Pivots r₁ t) (hn : r.Narrows r₁)
    (hplaces : ∀ v, ∀ k ∈ r.valuesFor v, src.Places k)
    (hplaces₁ : ∀ v, ∀ k ∈ r₁.valuesFor v, src.Places k)
    (hfound : (op.found t r).answer src = .ok change)
    (hfound₁ : (op.found t r₁).answer src = .ok change₁) (hb : change.Allows b) :
    change₁.Allows b := by
  obtain ⟨tuples, hf⟩ := found_pivots hplaces (h.narrow hn)
  obtain ⟨tuples₁, hf₁⟩ := found_pivots hplaces₁ h
  obtain rfl := Except.ok.inj (hf.1.symm.trans hfound)
  obtain rfl := Except.ok.inj (hf₁.1.symm.trans hfound₁)
  obtain ⟨hlinked, hvalues⟩ := (hf.2.2 b).mp hb.2
  refine ⟨hb.1, (hf₁.2.2 b).mpr ⟨hlinked, fun v hv => ?_⟩⟩
  exact hn.values v (h.binds_of_mem hv).2 _ (hvalues v (pivots_narrow hn v hv))

/-- What is linked in a place that is shown is what its statements say. -/
theorem holds_of_linked (hs : src.Shows here ss) (ht : t.Formed here)
    (hplace : (t.subject.value b).place = here) (h : t.Linked src b) : t.Holds ss b := by
  rw [Term.Linked] at h
  rw [Term.Holds]
  split at h
  · next q hq =>
    rw [hq]
    exact (hs.hops_iff (.inr (.inl hplace))).mp h
  · next segs hsegs =>
    have hl := (hs.links_iff (.inl hplace)).mp h
    rw [Segment.map_inPlace (ht.path segs hsegs)] at hl
    rw [hsegs]
    exact hl

/-- The pairs between values of rows are among those that were found from the starts of a path,
if each row has one of the starts. -/
theorem ends_allows_of_starts {s o : String} {segs : List Segment} {p : Pattern}
    (ht : Term.Formed here ⟨.free s, .path segs, .free o, p⟩) (hs : src.Shows here ss)
    (hr : Ready here bound r) (hr₁ : Ready here bound₁ r₁)
    (hstart : ∀ f, r.Has f → Term.Found ss bound₁ f ⟨.free s, .path segs, .free o, p⟩)
    (hnone : r₁.binds s = false ∧ r₁.binds o = false) (hsb : r.binds s = true)
    (hfound : (ends.found ⟨.free s, .path segs, .free o, p⟩ r).answer src = .ok change)
    (hfound₁ : (ends.found ⟨.free s, .path segs, .free o, p⟩ r₁).answer src = .ok change₁)
    (hb : change.Allows b) : change₁.Allows b := by
  have hfree : ∀ v, r₁.binds v = false → v ∉ bound₁ := by
    intro v hv hmem
    rw [hr₁.binds_iff.mpr hmem] at hv
    cases hv
  obtain ⟨tuples, hf⟩ := found_pivots (hr.places hs) (.ends s o segs p (.inl hsb))
  obtain rfl := Except.ok.inj (hf.1.symm.trans hfound)
  obtain ⟨change₁', hfound₁', -, hfinds⟩ := found_spec hs ht hr₁ (.ends s o segs p)
  obtain rfl := Except.ok.inj (hfound₁'.symm.trans hfound₁)
  obtain ⟨hlinked, hvalues⟩ := (hf.2.2 b).mp hb.2
  have hvalue : b s ∈ r.valuesFor s :=
    hvalues s (List.mem_filter.mpr ⟨by simp [Term.roleVars, Term.roles, Slot.var?], hsb⟩)
  obtain ⟨hne, row, hrow, heq⟩ := hr.indexed.mem_valuesFor.mp hvalue
  -- the rows did not bind the ends, so all agree with what is found now
  obtain ⟨a, ha⟩ := r₁.exists_allowed
  have hab : Agree a b := by
    intro v hav hbv
    have hmem := (hr₁.even a ha v).mp hav
    have hrole : v ∈ [s, o] := (hb.1 v).mp hbv
    simp only [List.mem_cons, List.not_mem_nil, or_false] at hrole
    rcases hrole with rfl | rfl
    · exact absurd hmem (hfree _ hnone.1)
    · exact absurd hmem (hfree _ hnone.2)
  refine (hfinds a b ha hab).mpr ⟨hb.1, ?_, fun hun => ?_⟩
  · exact holds_of_linked hs ht (hr.place_of_mem _ (Std.ExtTreeSet.mem_toList.mpr hvalue)) hlinked
  · show PathStart ss segs (b s)
    rw [← heq]
    exact (hstart _ ⟨row, hrow, rfl⟩).2 hun

/-- An operator that is run again on rows that have lost values finds no more than before. -/
theorem Fits.allows_of_narrows (hfit : op.Fits bound₁ t) (ht : t.Formed here)
    (hs : src.Shows here ss) (hr : Ready here bound r) (hr₁ : Ready here bound₁ r₁)
    (hn : r.Narrows r₁) (hroles : ∀ v ∈ t.roleVars, v ∈ bound)
    (hstart : ∀ f, r.Has f → t.Found ss bound₁ f)
    (hfound : (op.found t r).answer src = .ok change)
    (hfound₁ : (op.found t r₁).answer src = .ok change₁) (hb : change.Allows b) :
    change₁.Allows b := by
  have hpivots : ∀ {op : Operator}, op.Pivots r₁ t → (op.found t r).answer src = .ok change →
      (op.found t r₁).answer src = .ok change₁ → change₁.Allows b := fun h hfound hfound₁ =>
    h.allows_of_narrows hn (hr.places hs) (hr₁.places hs) hfound hfound₁ hb
  cases hfit with
  | check | subjects | objects | predicates | statementsInto | statementsFrom =>
    -- what is found does not depend on the rows
    cases Except.ok.inj (hfound.symm.trans hfound₁)
    exact hb
  | ends s o segs p =>
    by_cases hbound : r₁.binds s = true ∨ r₁.binds o = true
    · exact hpivots (.ends s o segs p hbound) hfound hfound₁
    · rw [not_or, Bool.not_eq_true, Bool.not_eq_true] at hbound
      have hsb := hr.binds_iff.mpr (hroles s (by simp [Term.roleVars, Term.roles, Slot.var?]))
      exact ends_allows_of_starts ht hs hr hr₁ hstart hbound hsb hfound hfound₁ hb
  | subjectsOfBound s o segs p h =>
    exact hpivots (.subjectsOfBound s o segs p (hr₁.binds_iff.mpr h)) hfound hfound₁
  | objectsOfBound s o segs p h =>
    exact hpivots (.objectsOfBound s o segs p (hr₁.binds_iff.mpr h)) hfound hfound₁
  | tripleFromSubject s q o p h =>
    exact hpivots (.tripleFromSubject s q o p (hr₁.binds_iff.mpr h)) hfound hfound₁
  | tripleFromObject s q o p h =>
    exact hpivots (.tripleFromObject s q o p (hr₁.binds_iff.mpr h)) hfound hfound₁
  | tripleFromPredicate s q o p h =>
    exact hpivots (.tripleFromPredicate s q o p (hr₁.binds_iff.mpr h)) hfound hfound₁

/-! ## Finding a part of each row -/

/-- If the rows bind the variables of a term for which it holds, an operator finds a part of each
row. -/
theorem Fits.exists_part (hfit : op.Fits bound t) (ht : t.Formed here) (hs : src.Shows here ss)
    (hr : Ready here bound r) (hroles : ∀ v ∈ t.roleVars, v ∈ bound)
    (hholds : ∀ f, r.Has f → t.Holds ss f) :
    ∃ change, (op.found t r).answer src = .ok change ∧ change.Proper ∧
      ∀ f, r.Has f → ∃ b, change.Allows b ∧ ∀ v ∈ change.vars, f v = b v := by
  obtain ⟨change, hfound, hproper, hfinds⟩ := found_spec hs ht hr hfit
  refine ⟨change, hfound, hproper, fun f hf => ?_⟩
  have hallows := Relation.allows_of_has hf
  have hbinds : Binds (restrict t.roleVars f) t.roleVars :=
    binds_restrict fun v hv => (hr.even f hallows v).mpr (hroles v hv)
  have hagree : ∀ v, restrict t.roleVars f v ≠ Key.empty → f v = restrict t.roleVars f v :=
    fun v hne => (restrict_of_mem ((hbinds v).mp hne)).symm
  have hpart : change.Allows (restrict t.roleVars f) := by
    refine (hfinds f _ hallows fun v _ hne => hagree v hne).mpr ⟨hbinds, ?_, ?_⟩
    · exact (Term.Holds.congr fun v hv => restrict_of_mem hv).mpr (hholds f hf)
    · rintro ⟨s, o, segs, hsubject, -, -, hnot, -⟩
      exact absurd (hroles s (Term.mem_roleVars.mpr (.inl (by rw [hsubject]; rfl)))) hnot
  exact ⟨_, hpart, fun v hv => hagree v ((hpart.binds v).mpr hv)⟩

end Operator

/-! ## Steps that are run again -/

/-- A step that left rows changes nothing when it is run again on what is left at the end. -/
theorem TidyRows.apply_again {ts us : List Term} {t : Term} {op : Operator} {r₂ : Relation}
    {change₁ : Relation.Change} (hs : src.Shows here ss) (h₁ : TidyRows ss ts r₁)
    (h : TidyRows ss (ts ++ t :: us) r) (hform : ∀ u ∈ ts ++ t :: us, u.Formed here)
    (he : r.isEmpty = false) (hfit : op.Fits (varsOf ts) t)
    (hfound₁ : (op.found t r₁).answer src = .ok change₁) (happ : r₁.apply change₁ = (.ok (), r₂)) :
    ∃ change, (op.found t r).answer src = .ok change ∧ r.apply change = (.ok (), r) := by
  have hts : ∀ u ∈ ts, u.Formed here := fun u hu => hform u (List.mem_append_left _ hu)
  have ht : t.Formed here := hform t (by simp)
  have hr := h.ready hs hform
  have hr₁ := h₁.ready hs hts
  have hvars : ∀ v ∈ varsOf ts, v ∈ varsOf (ts ++ t :: us) := by simp +contextual
  have hroles : ∀ v ∈ t.roleVars, v ∈ varsOf (ts ++ t :: us) :=
    fun v hv => List.mem_flatMap.mpr ⟨t, by simp, hv⟩
  have hstart : ∀ f, r.Has f → t.Found ss (varsOf ts) f := by
    intro f hf
    obtain ⟨-, hall⟩ := (h.allows f).mp (Relation.allows_of_has hf)
    exact (allowed_append.mp hall).2.1
  have hfit' : op.Fits (varsOf (ts ++ t :: us)) t :=
    hfit.of_startVar? fun v hv => hvars v (hfit.startVar?_mem hv)
  obtain ⟨change, hfound, hproper, hpart⟩ :=
    hfit'.exists_part ht hs hr hroles fun f hf => (hstart f hf).1
  obtain ⟨change₁', hfound₁', hproper₁, -⟩ := Operator.found_spec hs ht hr₁ hfit
  obtain rfl := Except.ok.inj (hfound₁'.symm.trans hfound₁)
  have hfits := (h₁.tidy.fits_of_apply h₁.even hproper₁ happ).mono fun b hb =>
    hfit.allows_of_narrows ht hs hr hr₁ (h₁.narrows h.toRows) hroles hstart hfound hfound₁ hb
  exact ⟨change, hfound, h.tidy.apply_eq_self he hproper hfits hpart⟩

/-- Wherever the same is read, a step leaves a relation as it is. -/
def Step.Stays (t : Tables) (src : Source) (r : Relation) (s : Step) : Prop :=
  ∀ c : Cursor, c.source t = src → c.relation = r →
    ∃ c', s.run t c = (.ok (), c') ∧ c'.source t = src ∧ c'.relation = r

namespace Cursor

variable {t : Tables} {c c' : Cursor} {steps : List Step} {q : Query} {p : Plan}

theorem runAll_of_stays (h : ∀ s ∈ steps, s.Stays t src r) (hsource : c.source t = src)
    (hr : c.relation = r) :
    ∃ c', runAll t c steps = (.ok (), c') ∧ c'.relation = r := by
  induction steps generalizing c with
  | nil => exact ⟨c, rfl, hr⟩
  | cons s steps ih =>
    obtain ⟨hs, hsteps⟩ := List.forall_mem_cons.mp h
    obtain ⟨mid, hrun, hmid, hrel⟩ := hs c hsource hr
    obtain ⟨c', hrest, hend⟩ := ih hsteps hmid hrel
    exact ⟨c', runAll_cons_eq_ok.mpr ⟨mid, hrun, hrest⟩, hend⟩

/-- A step of a plan that leaves rows was run on what the terms before it allow, and what it found
was applied. -/
theorem exists_rows_before {s : Step} {done rest : List Step}
    (hs : (c.source t).Shows (Checksum.ofText c.graph, c.version) ss)
    (hname : ∀ u k, c.keyOf t u = .ok k → k = c.nameOf u) (hp : c.plan t q = .ok p)
    (hsplit : p.steps = done ++ s :: rest)
    (hrun : runSteps t (c.withVariables p.vars) p.steps = (.ok (), c'))
    (he : c'.relation.isEmpty = false) :
    ∃ r₁ r₂ change, TidyRows ss (done.map Step.term) r₁ ∧
      s.operator.Fits (varsOf (done.map Step.term)) s.term ∧
      (s.operator.found s.term r₁).answer (c.source t) = .ok change ∧
      r₁.apply change = (.ok (), r₂) := by
  rw [hsplit] at hrun
  obtain ⟨mid, hdone, hleft, hrest⟩ := runSteps_append_ok hrun he
  obtain ⟨hsource, hrows⟩ := tidyRows_of_plan hs hname hp hsplit hdone hleft
  obtain ⟨-, -, -, hfitted⟩ := plan_spec hname hp
  rw [hsplit] at hfitted
  have hfit := (fitted_append.mp hfitted).2.1
  obtain ⟨next, hstep, -, -⟩ := runSteps_cons_ok hrest he
  obtain ⟨change, hfound, happ, -⟩ := Step.run_ok hstep
  exact ⟨mid.relation, next.relation, change, hrows, hfit, hsource ▸ hfound, happ⟩

/-- The steps of a plan leave what the plan left as it is. -/
theorem stays_of_execute (hs : (c.source t).Shows (Checksum.ofText c.graph, c.version) ss)
    (hname : ∀ u k, c.keyOf t u = .ok k → k = c.nameOf u) (hp : c.plan t q = .ok p)
    (hexec : c.execute t q = (.ok (), c')) (he : c'.relation.isEmpty = false) {s : Step}
    (hmem : s ∈ p.steps) : s.Stays t (c'.source t) c'.relation := by
  obtain ⟨done, rest, hsplit⟩ := List.append_of_mem hmem
  rw [execute_eq hp] at hexec
  obtain ⟨r₁, r₂, change₁, h₁, hfit, hfound₁, happ₁⟩ :=
    exists_rows_before hs hname hp hsplit hexec he
  obtain ⟨hsource, h⟩ :=
    tidyRows_of_plan hs hname hp (List.append_nil p.steps).symm hexec (.inr he)
  have hform : ∀ u ∈ done.map Step.term ++ s.term :: rest.map Step.term,
      u.Formed (Checksum.ofText c.graph, c.version) := by
    intro u hu
    have hu : u ∈ p.steps.map Step.term := by rw [hsplit]; simpa using hu
    obtain ⟨x, hx, rfl⟩ := List.mem_map.mp hu
    exact formed_of_plan hname hp x hx
  rw [hsplit, List.map_append, List.map_cons] at h
  intro c₂ hc₂ hr₂
  rw [← hsource] at hs hfound₁
  obtain ⟨change, hfound, happ⟩ := h₁.apply_again hs h hform he hfit hfound₁ happ₁
  rw [← hc₂, ← hr₂] at hfound
  have hleaves := Step.leaves_of_found hfound
  rw [hr₂, happ] at hleaves
  obtain ⟨hok, hrel⟩ := Prod.mk.inj hleaves
  have hrun₂ : s.run t c₂ = (.ok (), (s.run t c₂).2) := Prod.ext hok rfl
  obtain ⟨-, -, -, hsource₂, -⟩ := Step.run_ok hrun₂
  exact ⟨_, hrun₂, hsource₂.trans hc₂, hrel⟩

end Cursor

namespace Tables

variable {graph : String} {version : UInt64} {ts : List Triple} {t : Tables}

/-- On a version that is stored, if a query leaves rows then any steps of its plan, run again in
any order and any number of times, succeed and leave the relation as it is. -/
theorem relation_runAll_of_compile (hd : t.dictionary.Sound)
    (hlack : t.store.Lacks (Checksum.ofText graph, version)) (hts : FitsMemory ts)
    (hcompile : (Adjacency.compile graph version ts t.dictionary).isOk = true) :
    ∃ t', t.addVersion graph version ts = (.ok (), t') ∧
      ∀ (c c' : Cursor) (q : Query) (p : Plan) (again : List Step), c.graph = graph →
        c.version = version → c.Faithful t' → c.plan t' q = .ok p →
          c.execute t' q = (.ok (), c') → c'.relation.isEmpty = false →
            (∀ s ∈ again, s ∈ p.steps) →
              ∃ c'', Cursor.runAll t' c' again = (.ok (), c'') ∧ c''.relation = c'.relation := by
  obtain ⟨t', hadd, hholds⟩ := holds_of_compile hd hlack hts hcompile
  refine ⟨t', hadd, fun c c' q p again hgraph hversion hfaithful hp hexec he hagain => ?_⟩
  subst hgraph hversion
  have hs : (c.source t').Shows (Checksum.ofText c.graph, c.version)
      (statementsIn c.graph c.version ts) := hfaithful.source ▸ hholds.shows
  exact Cursor.runAll_of_stays (fun s hmem => Cursor.stays_of_execute hs
    (fun u k hk => hholds.sound.keyFor_eq hk) hp hexec he (hagain s hmem)) rfl rfl

/-- Both steps of a query, run again. -/
theorem relation_runAll_of_compile_chain :
    ∃ t', Tables.addVersion default "g" 1 chain = (.ok (), t') ∧
      ∃ p c' c'', (Cursor.new "g" 1 ∅).plan t' twoHops = .ok p ∧ p.steps.length = 2 ∧
        (Cursor.new "g" 1 ∅).execute t' twoHops = (.ok (), c') ∧ c'.relation.size = 1 ∧
        Cursor.runAll t' c' p.steps = (.ok (), c'') ∧ c''.relation = c'.relation := by
  have hlack : (default : Tables).store.Lacks (Checksum.ofText "g", 1) := Store.lacks_empty
  obtain ⟨t', hadd, h⟩ := relation_runAll_of_compile (t := default) Dictionary.sound_empty hlack
    (by decide : FitsMemory chain) (by decide +kernel)
  obtain rfl : t' = (Tables.addVersion default "g" 1 chain).2 := by rw [hadd]
  have hplan : ((Cursor.new "g" 1 ∅).plan (Tables.addVersion default "g" 1 chain).2
      twoHops).toOption.map (·.steps.length) = some 2 := by decide +kernel
  obtain ⟨p, hp, hlen⟩ := Option.map_eq_some_iff.mp hplan
  have hok : ((Cursor.new "g" 1 ∅).execute (Tables.addVersion default "g" 1 chain).2
      twoHops).1.toOption = some () := by decide +kernel
  have hsize : ((Cursor.new "g" 1 ∅).execute (Tables.addVersion default "g" 1 chain).2
      twoHops).2.relation.size = 1 := by decide +kernel
  have hexec : (Cursor.new "g" 1 ∅).execute (Tables.addVersion default "g" 1 chain).2 twoHops =
      (.ok (), ((Cursor.new "g" 1 ∅).execute (Tables.addVersion default "g" 1 chain).2
        twoHops).2) := Prod.ext (eq_ok_of_toOption hok) rfl
  obtain ⟨c'', hrun, hrel⟩ := h (.new "g" 1 ∅) _ twoHops p p.steps rfl rfl Cursor.faithful_new
    (eq_ok_of_toOption hp) hexec (by decide +kernel) fun s hs => hs
  exact ⟨_, hadd, p, _, c'', eq_ok_of_toOption hp, hlen, hexec, hsize, hrun, hrel⟩

end Tables

end TripleStore
