import TripleStore.Proofs.Query.Run

/-!
# Solutions of a query

A pattern holds if its path relates what its ends stand for.  A variable stands
for the key that an assignment gives it, also as the predicate of a path, and any
other name for its key in the version.  A solution of a query is an assignment
under which all its patterns hold.

What a query that is run to the end leaves in the rows are its solutions, as long
as paths between two variables take a hop.  Without this the rows are those that
the terms allow in the order of the plan.
-/

namespace TripleStore

/-! ## Patterns -/

/-- What a name in a pattern stands for. -/
def Uri.meaning (name : Uri → Key) (f : String → Key) (u : Uri) : Key :=
  if u.isVariable then f u.value else name u

namespace Pattern

/-- The path of a pattern relates its ends. -/
def Holds (ss : List Statement) (name : Uri → Key) (f : String → Key) (p : Pattern) : Prop :=
  PathLinks ss (p.path.map fun s => ⟨s.predicate.meaning name f, s.quantifier⟩)
    (p.subject.meaning name f) (p.object.meaning name f)

/-- A path without variables between two variables takes a hop. -/
def TakesHop (p : Pattern) : Prop :=
  p.subject.isVariable = true → p.object.isVariable = true →
    (∀ s ∈ p.path, s.predicate.isVariable = false) →
      ∃ s ∈ p.path, s.quantifier.allowsNoHop = false

instance (p : Pattern) : Decidable p.TakesHop :=
  inferInstanceAs (Decidable (_ → _ → _ → _))

theorem mem_foldl_addVariable {vs ws : List String} {v : String} :
    v ∈ vs.foldl addVariable ws ↔ v ∈ ws ∨ v ∈ vs := by
  induction vs generalizing ws with
  | nil => simp
  | cons w vs ih =>
    rw [List.foldl_cons, ih, List.mem_cons, addVariable]
    split
    · next hw =>
      constructor
      · rintro (h | h)
        · exact .inl h
        · exact .inr (.inr h)
      · rintro (h | rfl | h)
        · exact .inl h
        · exact .inl hw
        · exact .inr h
    · simp [or_assoc]

theorem mem_vars {p : Pattern} {v : String} :
    v ∈ p.vars ↔ ∃ u ∈ p.terms, u.isVariable = true ∧ u.value = v := by
  rw [vars, mem_foldl_addVariable]
  simp [and_assoc]

end Pattern

/-! ## Terms of patterns -/

/-- What the name at an end of a pattern becomes in a term. -/
inductive Slot.Reads (name : Uri → Key) (u : Uri) : Slot → Prop
  | free (h : u.isVariable = true) : Slot.Reads name u (.free u.value)
  | bound (h : u.isVariable = false) : Slot.Reads name u (.bound (name u))

/-- What the path of a pattern becomes in a term. -/
inductive Link.Reads (name : Uri → Key) : List PathStep → Link → Prop
  | free (u : Uri) (h : u.isVariable = true) : Link.Reads name [⟨u, .single⟩] (.free u.value)
  | path (steps : List PathStep) (hne : steps ≠ [])
      (h : ∀ s ∈ steps, s.predicate.isVariable = false) :
      Link.Reads name steps (.path (steps.map fun s => ⟨name s.predicate, s.quantifier⟩))

section

variable {name : Uri → Key} {f : String → Key} {v : String}

namespace Slot.Reads

variable {u : Uri} {slot : Slot}

theorem value_eq (h : slot.Reads name u) : slot.value f = u.meaning name f := by
  cases h with
  | free h => simp [Slot.value, Uri.meaning, h]
  | bound h => simp [Slot.value, Uri.meaning, h]

theorem var?_eq_some (h : slot.Reads name u) :
    slot.var? = some v ↔ u.isVariable = true ∧ u.value = v := by
  cases h with
  | free h => simp [Slot.var?, h]
  | bound h => simp [Slot.var?, h]

theorem key_eq {k : Key} (h : slot.Reads name u) (hk : slot = .bound k) : k = name u := by
  cases h with
  | free h => cases hk
  | bound h => exact (Slot.bound.inj hk).symm

end Slot.Reads

namespace Link.Reads

variable {steps : List PathStep} {link : Link}

theorem links_iff {ss : List Statement} {x y : Key} (h : link.Reads name steps) :
    link.Links ss f x y ↔
      PathLinks ss (steps.map fun s => ⟨s.predicate.meaning name f, s.quantifier⟩) x y := by
  cases h with
  | free u h =>
    rw [List.map_singleton, pathLinks_singleton]
    simp only [Uri.meaning, h, if_true]
    rfl
  | path _ _ h =>
    have hmap : (steps.map fun s => Segment.mk (s.predicate.meaning name f) s.quantifier) =
        steps.map fun s => ⟨name s.predicate, s.quantifier⟩ := by
      refine List.map_congr_left fun s hmem => ?_
      simp [Uri.meaning, h s hmem]
    rw [hmap]
    rfl

theorem var?_eq_some (h : link.Reads name steps) : link.var? = some v ↔
    ∃ s ∈ steps, s.predicate.isVariable = true ∧ s.predicate.value = v := by
  cases h with
  | free u h => simp [Link.var?, h]
  | path _ _ h =>
    constructor
    · intro hv
      cases hv
    · rintro ⟨s, hmem, hv, -⟩
      rw [h s hmem] at hv
      cases hv

/-- A path comes of a path without variables. -/
theorem of_path {segs : List Segment} (h : link.Reads name steps) (hl : link = .path segs) :
    (∀ s ∈ steps, s.predicate.isVariable = false) ∧ segs ≠ [] ∧
      segs = steps.map fun s => ⟨name s.predicate, s.quantifier⟩ := by
  cases h with
  | free u h => cases hl
  | path _ hne h =>
    obtain rfl := Link.path.inj hl
    exact ⟨h, fun hnil => hne (List.map_eq_nil_iff.mp hnil), rfl⟩

end Link.Reads

end

namespace Term

variable {key : Uri → Except Fault Key} {name : Uri → Key} {p : Pattern}

theorem slotOf_reads (hname : ∀ u k, key u = .ok k → k = name u) {u : Uri} {slot : Slot}
    (h : slotOf key u = .ok slot) : slot.Reads name u := by
  rw [slotOf] at h
  split at h
  · next hv => exact Except.ok.inj h ▸ .free hv
  · next hv =>
    obtain ⟨k, hk, rfl⟩ := map_eq_ok.mp h
    rw [hname u k hk]
    exact .bound (by simpa using hv)

theorem segmentsOf_spec (hname : ∀ u k, key u = .ok k → k = name u) {steps : List PathStep}
    {segs : List Segment} (h : steps.mapM (segmentOf key p) = .ok segs) :
    (∀ s ∈ steps, s.predicate.isVariable = false) ∧
      segs = steps.map fun s => ⟨name s.predicate, s.quantifier⟩ := by
  induction mapM_eq_ok.mp h with
  | nil => exact ⟨List.forall_mem_nil _, rfl⟩
  | @cons s seg steps segs hseg hrest ih =>
    obtain ⟨hnovar, hsegs⟩ := ih (mapM_eq_ok.mpr hrest)
    rw [segmentOf] at hseg
    split at hseg
    · cases hseg
    · next hv =>
      obtain ⟨k, hk, hseg⟩ := bind_eq_ok.mp hseg
      obtain rfl := Except.ok.inj hseg
      exact ⟨List.forall_mem_cons.mpr ⟨by simpa using hv, hnovar⟩,
        by rw [List.map_cons, hsegs, hname _ k hk]⟩

theorem linkOf_reads (hname : ∀ u k, key u = .ok k → k = name u) {link : Link}
    (h : linkOf key p = .ok link) : link.Reads name p.path := by
  rw [linkOf] at h
  split at h
  · cases h
  · next u hpath =>
    rw [hpath]
    split at h
    · next hv => exact Except.ok.inj h ▸ .free u hv
    · next hv =>
      obtain ⟨k, hk, rfl⟩ := map_eq_ok.mp h
      rw [hname u k hk]
      exact .path [⟨u, .single⟩] (List.cons_ne_nil _ _) (by simpa using hv)
  · next hnil _ =>
    obtain ⟨segs, hsegs, rfl⟩ := map_eq_ok.mp h
    obtain ⟨hnovar, rfl⟩ := segmentsOf_spec hname hsegs
    exact .path p.path (fun hpath => hnil hpath) hnovar

/-- What a term made of a pattern has to do with the pattern. -/
structure Reads (name : Uri → Key) (p : Pattern) (t : Term) : Prop where
  /-- The term holds when the pattern does. -/
  holds : ∀ ss f, t.Holds ss f ↔ p.Holds ss name f
  /-- They have the same variables. -/
  vars : ∀ v, v ∈ t.roleVars ↔ v ∈ p.vars
  /-- Paths between two variables take a hop in the term if they do in the pattern. -/
  takesHop : p.TakesHop → t.TakesHop
  /-- The keys are those of the names, and there is a segment. -/
  formed : ∀ here, (∀ u, (name u).place = here) → t.Formed here

/-- A term whose positions come of those of a pattern comes of the pattern. -/
theorem reads_of_positions {t : Term} (hs : t.subject.Reads name p.subject)
    (hl : t.link.Reads name p.path) (ho : t.object.Reads name p.object) : t.Reads name p where
  holds ss f := by
    rw [Holds, Pattern.Holds, hs.value_eq, ho.value_eq]
    exact hl.links_iff
  vars v := by
    rw [mem_roleVars, Pattern.mem_vars, hs.var?_eq_some, ho.var?_eq_some, hl.var?_eq_some,
      Pattern.terms]
    simp only [List.cons_append, List.mem_cons, List.mem_append, List.mem_map, List.not_mem_nil,
      or_false, or_and_right, exists_or, exists_eq_left]
    refine or_congr_right (or_congr_left ?_)
    constructor
    · rintro ⟨s, hmem, hv⟩
      exact ⟨_, ⟨s, hmem, rfl⟩, hv⟩
    · rintro ⟨-, ⟨s, hmem, rfl⟩, hv⟩
      exact ⟨s, hmem, hv⟩
  takesHop hhop := by
    intro s o segs hsub hlink hobj
    have hsv := (hs.var?_eq_some.mp (by rw [hsub]; rfl : t.subject.var? = some s)).1
    have hov := (ho.var?_eq_some.mp (by rw [hobj]; rfl : t.object.var? = some o)).1
    obtain ⟨hnovar, -, rfl⟩ := hl.of_path hlink
    obtain ⟨step, hmem, hq⟩ := hhop hsv hov hnovar
    exact ⟨_, List.mem_map.mpr ⟨step, hmem, rfl⟩, hq⟩
  formed here hplace := by
    refine ⟨⟨fun k hk => hs.key_eq hk ▸ hplace _, fun segs hsegs seg hseg => ?_,
      fun k hk => ho.key_eq hk ▸ hplace _⟩, fun hnil => (hl.of_path hnil).2.1 rfl⟩
    obtain ⟨-, -, rfl⟩ := hl.of_path hsegs
    obtain ⟨s, -, rfl⟩ := List.mem_map.mp hseg
    exact hplace _

theorem ofPattern_spec (hname : ∀ u k, key u = .ok k → k = name u) {t : Term}
    (h : ofPattern key p = .ok t) : t.Reads name p := by
  obtain ⟨link, hlink, h⟩ := bind_eq_ok.mp h
  obtain ⟨subject, hsubject, h⟩ := bind_eq_ok.mp h
  obtain ⟨object, hobject, h⟩ := bind_eq_ok.mp h
  obtain rfl := Except.ok.inj h
  exact reads_of_positions (slotOf_reads hname hsubject) (linkOf_reads hname hlink)
    (slotOf_reads hname hobject)

end Term

/-! ## Queries -/

/-- The variables of the patterns of a query. -/
def Query.whereVars (q : Query) : List String := q.patterns.flatMap Pattern.vars

namespace Cursor

/-- The key of a name in the version of a cursor. -/
def nameOf (c : Cursor) (u : Uri) : Key := Key.ofUri c.graph (c.expand u) c.version

/-- An assignment under which all patterns of a query hold. -/
def Solves (c : Cursor) (ss : List Statement) (q : Query) (f : String → Key) : Prop :=
  ∀ p ∈ q.patterns, p.Holds ss c.nameOf f

variable {t : Tables} {c c' : Cursor} {ss : List Statement} {q : Query}

/-- The steps of a plan are for the patterns of the query, and their operators fit. -/
theorem plan_spec (hname : ∀ u k, c.keyOf t u = .ok k → k = c.nameOf u) {p : Plan}
    (hp : c.plan t q = .ok p) :
    (∀ x ∈ p.steps, ∃ pat ∈ q.patterns, x.term.Reads c.nameOf pat) ∧
      (∀ pat ∈ q.patterns, ∃ x ∈ p.steps, x.term.Reads c.nameOf pat) ∧
      p.steps ≠ [] ∧ Fitted [] p.steps := by
  obtain ⟨terms, hterms, horder, hfit⟩ := Plan.ofQuery_spec hp
  have hperm : (p.steps.map Step.term).Perm terms := horder ▸ Plan.order_terms_perm terms
  refine ⟨fun x hx => ?_, fun pat hpat => ?_, fun hnil => ?_, hfit⟩
  · obtain ⟨pat, hpat, hu⟩ := (mem_of_mapM hterms).mp (hperm.subset (List.mem_map_of_mem hx))
    exact ⟨pat, hpat, Term.ofPattern_spec hname hu⟩
  · obtain ⟨u, hu, hpu⟩ := exists_of_mapM hterms hpat
    obtain ⟨x, hx, rfl⟩ := List.mem_map.mp (hperm.symm.subset hu)
    exact ⟨x, hx, Term.ofPattern_spec hname hpu⟩
  · -- a plan has a step, as a query without patterns is refused
    obtain rfl : terms = [] := by simpa [hnil] using hperm.symm
    have hpatterns : q.patterns = [] := List.forall₂_nil_right_iff.mp (mapM_eq_ok.mp hterms)
    rw [plan, Plan.ofQuery, hpatterns] at hp
    cases hp

/-- What is left by a query that succeeds is what its terms allow in the order of its plan. -/
theorem execute_plan (hs : (c.source t).Shows (Checksum.ofText c.graph, c.version) ss)
    (hname : ∀ u k, c.keyOf t u = .ok k → k = c.nameOf u)
    (h : c.execute t q = (.ok (), c')) :
    ∃ p, c.plan t q = .ok p ∧ c'.relation.Indexed ∧ ∀ f, c'.relation.Has f ↔
      Binds f (varsOf (p.steps.map Step.term)) ∧ Allowed ss [] (p.steps.map Step.term) f := by
  rw [execute] at h
  cases hp : c.plan t q with
  | error e =>
    rw [hp] at h
    cases h
  | ok p =>
    rw [hp] at h
    obtain ⟨hread, -, hne, hfit⟩ := plan_spec hname hp
    have hform : ∀ x ∈ p.steps, x.term.Formed (Checksum.ofText c.graph, c.version) := by
      intro x hx
      obtain ⟨pat, -, hr⟩ := hread x hx
      exact hr.formed _ fun _ => rfl
    have h : runSteps t (c.withVariables p.vars) p.steps = (.ok (), c') := h
    refine ⟨p, rfl, ?_⟩
    obtain ⟨s, steps, hsteps⟩ := List.exists_cons_of_ne_nil hne
    rw [hsteps] at h hform hfit ⊢
    have hnone : ∀ u ∈ ([] : List Term), u.Formed (Checksum.ofText c.graph, c.version) :=
      List.forall_mem_nil _
    have hs : ((c.withVariables p.vars).source t).Shows _ ss := hs
    exact runSteps_spec hs (rows_new p.vars) hnone hform hfit h

/-- What is left by a query that succeeds, for terms of its patterns in some order. -/
theorem execute_spec (hs : (c.source t).Shows (Checksum.ofText c.graph, c.version) ss)
    (hname : ∀ u k, c.keyOf t u = .ok k → k = c.nameOf u)
    (h : c.execute t q = (.ok (), c')) :
    ∃ ts, (∀ t ∈ ts, ∃ p ∈ q.patterns, t.Reads c.nameOf p) ∧
      (∀ p ∈ q.patterns, ∃ t ∈ ts, t.Reads c.nameOf p) ∧ c'.relation.Indexed ∧
      ∀ f, c'.relation.Has f ↔ Binds f (varsOf ts) ∧ Allowed ss [] ts f := by
  obtain ⟨p, hp, hi, hhas⟩ := execute_plan hs hname h
  obtain ⟨hread, hpat, -, -⟩ := plan_spec hname hp
  refine ⟨p.steps.map Step.term, fun u hu => ?_, fun pat hmem => ?_, hi, hhas⟩
  · obtain ⟨x, hx, rfl⟩ := List.mem_map.mp hu
    exact hread x hx
  · obtain ⟨x, hx, hr⟩ := hpat pat hmem
    exact ⟨x.term, List.mem_map_of_mem hx, hr⟩

/-- What is left are the solutions, if paths between two variables take a hop. -/
theorem has_iff_solves (hs : (c.source t).Shows (Checksum.ofText c.graph, c.version) ss)
    (hname : ∀ u k, c.keyOf t u = .ok k → k = c.nameOf u)
    (hhop : ∀ p ∈ q.patterns, p.TakesHop) (h : c.execute t q = (.ok (), c')) {f : String → Key} :
    c'.relation.Has f ↔ Binds f q.whereVars ∧ c.Solves ss q f := by
  obtain ⟨ts, hterm, hpat, -, hhas⟩ := execute_spec hs hname h
  have hvars : Binds f (varsOf ts) ↔ Binds f q.whereVars := by
    refine forall_congr' fun v => iff_congr Iff.rfl ?_
    rw [varsOf, Query.whereVars]
    simp only [List.mem_flatMap]
    constructor
    · rintro ⟨t, ht, hv⟩
      obtain ⟨p, hp, hr⟩ := hterm t ht
      exact ⟨p, hp, (hr.vars v).mp hv⟩
    · rintro ⟨p, hp, hv⟩
      obtain ⟨t, ht, hr⟩ := hpat p hp
      exact ⟨t, ht, (hr.vars v).mpr hv⟩
  have htakes : ∀ t ∈ ts, t.TakesHop := by
    intro t ht
    obtain ⟨p, hp, hr⟩ := hterm t ht
    exact hr.takesHop (hhop p hp)
  rw [hhas, hvars, allowed_iff_holds htakes]
  refine and_congr_right fun _ => ?_
  constructor
  · intro hall p hp
    obtain ⟨t, ht, hr⟩ := hpat p hp
    exact (hr.holds ss f).mp (hall t ht)
  · intro hall t ht
    obtain ⟨p, hp, hr⟩ := hterm t ht
    exact (hr.holds ss f).mpr (hall p hp)

end Cursor

end TripleStore
