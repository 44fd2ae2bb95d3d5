import TripleStore.Proofs.Plan.Steps
import TripleStore.Proofs.Query.Confined

/-!
# Running the steps of a plan

A cursor reads the same after a step as before it, as it remembers only what it
read.  So the invariant of a run is about the rows alone: they are the
assignments that bind the variables of the terms matched so far and that these
terms allow, one after the other.

A run may stop at a step that leaves no row.  Nothing is lost by this, as the
rows of a longer run are rows of each shorter one, restricted to its variables.
-/

namespace TripleStore

/-! ## Reading with a memory -/

namespace Cursor

variable {t : Tables}

theorem source_remember {c : Cursor} {log : ReadLog}
    (h : ∀ p ∈ log, c.source t p.1 = .ok p.2) : (c.remember log).source t = c.source t := by
  induction log generalizing c with
  | nil => rfl
  | cons p log ih =>
    obtain ⟨one, hone⟩ : ∃ one : Cursor, one = { c with cache := c.cache.insertIfNew p.1 p.2 } :=
      ⟨_, rfl⟩
    have hsource : one.source t = c.source t := by
      funext k
      have hp := h p List.mem_cons_self
      simp only [source] at hp ⊢
      simp only [hone, Std.ExtTreeMap.getElem?_insertIfNew, Std.LawfulEqOrd.compare_eq_iff_eq]
      by_cases hk : p.1 = k ∧ p.1 ∉ c.cache
      · obtain ⟨rfl, hnew⟩ := hk
        rw [Std.ExtTreeMap.getElem?_eq_none hnew] at hp ⊢
        rw [if_pos ⟨rfl, hnew⟩]
        exact hp.symm
      · rw [if_neg hk]
    have hrest : (one.remember log).source t = one.source t := by
      refine ih fun q hq => ?_
      rw [hsource]
      exact h q (List.mem_cons_of_mem _ hq)
    rw [← hsource, ← hrest, hone]
    rfl

end Cursor

/-- A step reads first, and then the relation is changed by what it found. -/
theorem Step.run_eq (t : Tables) (c : Cursor) (s : Step) :
    s.run t c =
      match (s.operator.found s.term c.relation).answer (c.source t) with
      | .ok change => ((c.relation.apply change).1,
          { c.remember ((s.operator.found s.term c.relation).log (c.source t)) with
            relation := (c.relation.apply change).2 })
      | .error e =>
        (.error e, c.remember ((s.operator.found s.term c.relation).log (c.source t))) := by
  rw [run, Cursor.run, Reading.answer, Reading.log]
  rcases s.operator.found s.term c.relation (c.source t) with ⟨e | change, log⟩
  · rfl
  · rfl

/-- A step that succeeds applies what its operator found, and reads the same afterwards. -/
theorem Step.run_ok {t : Tables} {c c' : Cursor} {s : Step} (h : s.run t c = (.ok (), c')) :
    ∃ change, (s.operator.found s.term c.relation).answer (c.source t) = .ok change ∧
      c.relation.apply change = (.ok (), c'.relation) ∧ c'.source t = c.source t ∧
      c'.graph = c.graph ∧ c'.version = c.version ∧ c'.namespaces = c.namespaces := by
  have hlog := (Operator.found_confined_all s.operator s.term c.relation).log (c.source t)
    (Source.closed_true _)
  rw [run_eq] at h
  cases hfound : (s.operator.found s.term c.relation).answer (c.source t) with
  | error e =>
    rw [hfound] at h
    cases h
  | ok change =>
    rw [hfound] at h
    obtain ⟨hok, rfl⟩ := Prod.mk.inj h
    refine ⟨change, rfl, Prod.ext hok rfl, ?_, rfl, rfl, rfl⟩
    exact Cursor.source_remember fun p hp => (hlog p hp).2

/-! ## What terms allow one after the other -/

/-- The variables of terms. -/
def varsOf (ts : List Term) : List String := ts.flatMap Term.roleVars

/-- Terms are found one after the other, if rows bind some variables at the start. -/
def Allowed (ss : List Statement) : List String → List Term → (String → Key) → Prop
  | _, [], _ => True
  | bound, t :: ts, f => t.Found ss bound f ∧ Allowed ss (bound ++ t.roleVars) ts f

@[simp] theorem varsOf_append (ts us : List Term) : varsOf (ts ++ us) = varsOf ts ++ varsOf us := by
  rw [varsOf, List.flatMap_append]
  rfl

variable {here : UInt32 × UInt64} {ss : List Statement}

theorem allowed_append {bound : List String} {ts us : List Term} {f : String → Key} :
    Allowed ss bound (ts ++ us) f ↔
      Allowed ss bound ts f ∧ Allowed ss (bound ++ varsOf ts) us f := by
  induction ts generalizing bound with
  | nil => simp [Allowed, varsOf]
  | cons t ts ih =>
    simp only [List.cons_append, Allowed, ih, and_assoc]
    simp [varsOf]

theorem Allowed.congr {bound : List String} {ts : List Term} {f g : String → Key}
    (h : ∀ v ∈ varsOf ts, f v = g v) : Allowed ss bound ts f ↔ Allowed ss bound ts g := by
  induction ts generalizing bound with
  | nil => exact Iff.rfl
  | cons t ts ih =>
    simp only [varsOf, List.flatMap_cons, List.mem_append] at h
    exact and_congr (Term.Found.congr fun v hv => h v (.inl hv)) (ih fun v hv => h v (.inr hv))

/-- If all paths between two variables take a hop, the order of the terms does not matter. -/
theorem allowed_iff_holds {bound : List String} {ts : List Term} {f : String → Key}
    (h : ∀ t ∈ ts, t.TakesHop) : Allowed ss bound ts f ↔ ∀ t ∈ ts, t.Holds ss f := by
  induction ts generalizing bound with
  | nil => simp [Allowed]
  | cons t ts ih =>
    rw [Allowed, (h t List.mem_cons_self).found_iff, ih fun t ht => h t (List.mem_cons_of_mem _ ht),
      List.forall_mem_cons]

theorem Allowed.isNode {bound : List String} {ts : List Term} {f : String → Key}
    (ht : ∀ t ∈ ts, t.Formed here) (h : Allowed ss bound ts f) {v : String} (hv : v ∈ varsOf ts) :
    IsNode ss (f v) := by
  induction ts generalizing bound with
  | nil => cases hv
  | cons t ts ih =>
    simp only [varsOf, List.flatMap_cons, List.mem_append] at hv
    rcases hv with hv | hv
    · exact Term.Holds.isNode (ht t List.mem_cons_self) h.1.1 hv
    · exact ih (fun t h => ht t (List.mem_cons_of_mem _ h)) h.2 hv

/-! ## Restrictions -/

/-- An assignment without the bindings of other variables. -/
def restrict (vars : List String) (f : String → Key) : String → Key :=
  fun v => if v ∈ vars then f v else Key.empty

theorem restrict_of_mem {vars : List String} {f : String → Key} {v : String} (h : v ∈ vars) :
    restrict vars f v = f v := if_pos h

theorem binds_restrict {vars : List String} {f : String → Key}
    (h : ∀ v ∈ vars, f v ≠ Key.empty) : Binds (restrict vars f) vars := by
  intro v
  by_cases hv : v ∈ vars
  · rw [restrict_of_mem hv]
    exact iff_of_true (h v hv) hv
  · simp [restrict, hv]

theorem agree_restrict (xs ys : List String) (f : String → Key) :
    Agree (restrict xs f) (restrict ys f) := by
  intro v hx hy
  simp only [restrict] at hx hy ⊢
  split at hx
  · next hxs =>
    split at hy
    · next hys => rw [if_pos hxs, if_pos hys]
    · exact absurd rfl hy
  · exact absurd rfl hx

theorem overlay_restrict {xs ys : List String} {f : String → Key} (h : Binds f (xs ++ ys)) :
    overlay (restrict xs f) (restrict ys f) = f := by
  funext v
  unfold overlay restrict
  by_cases hy : v ∈ ys
  · have hne : f v ≠ Key.empty := (h v).mpr (List.mem_append_right _ hy)
    rw [if_pos hy, if_neg hne]
  · rw [if_neg hy, if_pos rfl]
    by_cases hx : v ∈ xs
    · rw [if_pos hx]
    · have hv : v ∉ xs ++ ys := fun hv => (List.mem_append.mp hv).elim hx hy
      rw [if_neg hx]
      exact (not_not.mp (mt (h v).mp hv)).symm

/-- Terms that allow nothing allow nothing together with further terms. -/
theorem not_allowed_append {ts us : List Term}
    (h : ∀ f, ¬ (Binds f (varsOf ts) ∧ Allowed ss [] ts f)) (f : String → Key) :
    ¬ (Binds f (varsOf (ts ++ us)) ∧ Allowed ss [] (ts ++ us) f) := by
  rintro ⟨hbind, hall⟩
  refine h (restrict (varsOf ts) f) ⟨binds_restrict fun v hv => (hbind v).mpr ?_, ?_⟩
  · rw [varsOf_append]
    exact List.mem_append_left _ hv
  · exact (Allowed.congr fun v hv => restrict_of_mem hv).mpr (allowed_append.mp hall).1

/-! ## The invariant of a run -/

/-- The rows of a relation are what terms allow. -/
structure Rows (ss : List Statement) (ts : List Term) (r : Relation) : Prop where
  /-- The index is right. -/
  indexed : r.Indexed
  /-- The assignments of the rows are those that the terms allow. -/
  allows : ∀ f, r.Allows f ↔ Binds f (varsOf ts) ∧ Allowed ss [] ts f

/-- A relation without rows stands for no terms, whether nothing is known yet or all rows are
gone. -/
theorem rows_of_isEmpty {r : Relation} (hi : r.Indexed) (he : r.isEmpty = true) :
    Rows ss [] r := by
  refine ⟨hi, fun f => ?_⟩
  rw [Relation.allows_of_isEmpty he]
  show f = unbound ↔ Binds f [] ∧ True
  rw [binds_nil_iff, and_true]

theorem rows_new (vars : List String) : Rows ss [] (.new vars) :=
  rows_of_isEmpty (Relation.indexed_new vars) rfl

/-- All rows bind the variables of the terms. -/
theorem Rows.even {ts : List Term} {r : Relation} (h : Rows ss ts r) : r.Even (varsOf ts) :=
  fun f hf => ((h.allows f).mp hf).1

/-- What the terms allow is a row, if it binds nothing else. -/
theorem Rows.allows_restrict {ts : List Term} {r : Relation} {f : String → Key}
    (h : Rows ss ts r) (hne : ∀ v ∈ varsOf ts, f v ≠ Key.empty) (hall : Allowed ss [] ts f) :
    r.Allows (restrict (varsOf ts) f) :=
  (h.allows _).mpr ⟨binds_restrict hne, (Allowed.congr fun _ => restrict_of_mem).mpr hall⟩

/-- An operator can be run on rows that terms allow. -/
theorem Rows.ready {src : Source} {ts : List Term} {r : Relation} (hs : src.Shows here ss)
    (h : Rows ss ts r) (hts : ∀ u ∈ ts, u.Formed here) : Operator.Ready here (varsOf ts) r := by
  refine ⟨h.indexed, h.even, fun f hf v hv => ?_⟩
  obtain ⟨hb, hall⟩ := (h.allows f).mp (Relation.allows_of_has hf)
  exact hs.place _ (hall.isNode hts ((hb v).mp hv))

/-- Rows with a further term. -/
theorem Rows.apply {src : Source} {ts : List Term} {t : Term} {op : Operator} {r r' : Relation}
    {change : Relation.Change} (hs : src.Shows here ss) (h : Rows ss ts r)
    (hts : ∀ u ∈ ts, u.Formed here) (ht : t.Formed here) (hfit : op.Fits (varsOf ts) t)
    (hfound : (op.found t r).answer src = .ok change) (happ : r.apply change = (.ok (), r')) :
    r'.Indexed ∧ ∀ f, r'.Has f ↔ Binds f (varsOf (ts ++ [t])) ∧ Allowed ss [] (ts ++ [t]) f := by
  obtain ⟨change', hfound', hproper, hfinds⟩ := Operator.found_spec hs ht (h.ready hs hts) hfit
  obtain rfl : change' = change := Except.ok.inj (hfound'.symm.trans hfound)
  obtain ⟨hi, hhas⟩ := Relation.apply_spec h.indexed h.even hproper happ
  have hvars : varsOf (ts ++ [t]) = varsOf ts ++ t.roleVars := by simp [varsOf]
  refine ⟨hi, fun f => ?_⟩
  rw [hhas, hvars, allowed_append]
  simp only [Allowed, and_true, List.nil_append]
  constructor
  · rintro ⟨a, b, ha, hb, hab, rfl⟩
    obtain ⟨hbind, hfind⟩ := (hfinds a b ha hab).mp hb
    obtain ⟨habind, hall⟩ := (h.allows a).mp ha
    have hleft : ∀ v ∈ varsOf ts, overlay a b v = a v :=
      fun v hv => overlay_of_agree hab ((habind v).mpr hv)
    have hright : ∀ v ∈ t.roleVars, overlay a b v = b v :=
      fun v hv => overlay_of_ne_empty a ((hbind v).mpr hv)
    refine ⟨fun v => ?_, (Allowed.congr hleft).mpr hall, (Term.Found.congr hright).mpr hfind⟩
    rw [overlay_ne_empty, habind v, hbind v, List.mem_append]
  · rintro ⟨hbind, hall, hfind⟩
    have hne : ∀ v ∈ varsOf ts ++ t.roleVars, f v ≠ Key.empty := fun v hv => (hbind v).mpr hv
    have ha := h.allows_restrict (fun v hv => hne v (List.mem_append_left _ hv)) hall
    refine ⟨_, restrict t.roleVars f, ha, (hfinds _ _ ha (agree_restrict _ _ f)).mpr ⟨?_, ?_⟩,
      agree_restrict _ _ f, (overlay_restrict hbind).symm⟩
    · exact binds_restrict fun v hv => hne v (List.mem_append_right _ hv)
    · exact (Term.Found.congr fun v hv => restrict_of_mem hv).mpr hfind

/-! ## Runs -/

namespace Cursor

variable {t : Tables}

/-- The rows after a run are what all its terms allow. -/
theorem runSteps_spec {c c' : Cursor} {ts : List Term} {s : Step} {steps : List Step}
    (hs : (c.source t).Shows here ss) (h : Rows ss ts c.relation)
    (hts : ∀ u ∈ ts, u.Formed here) (hform : ∀ x ∈ s :: steps, x.term.Formed here)
    (hfit : Fitted (varsOf ts) (s :: steps)) (hrun : runSteps t c (s :: steps) = (.ok (), c')) :
    c'.relation.Indexed ∧ ∀ f, c'.relation.Has f ↔
      Binds f (varsOf (ts ++ (s :: steps).map Step.term)) ∧
        Allowed ss [] (ts ++ (s :: steps).map Step.term) f := by
  induction steps generalizing c s ts with
  | nil =>
    rw [runSteps] at hrun
    split at hrun
    · next u c₁ hstep =>
      obtain ⟨change, hfound, happ, hsource, -⟩ := Step.run_ok hstep
      have hdone : c₁ = c' := by
        split at hrun
        · exact (Prod.mk.inj hrun).2
        · exact (Prod.mk.inj hrun).2
      subst hdone
      exact h.apply hs hts (hform s List.mem_cons_self) hfit.1 hfound happ
    · cases hrun
  | cons s' steps ih =>
    rw [runSteps] at hrun
    split at hrun
    · next u c₁ hstep =>
      obtain ⟨change, hfound, happ, hsource, -⟩ := Step.run_ok hstep
      have hsform := hform s List.mem_cons_self
      obtain ⟨hi, hhas⟩ := h.apply hs hts hsform hfit.1 hfound happ
      have hsplit : ts ++ (s :: s' :: steps).map Step.term =
          (ts ++ [s.term]) ++ (s' :: steps).map Step.term := by simp
      have hvars : varsOf ts ++ s.term.roleVars = varsOf (ts ++ [s.term]) := by simp [varsOf]
      rw [hsplit]
      cases he : c₁.relation.isEmpty with
      | true =>
        -- no row is left, so no assignment is allowed by more terms either
        rw [he, if_pos rfl] at hrun
        obtain rfl := (Prod.mk.inj hrun).2
        have hnone : ∀ f, ¬ (Binds f (varsOf (ts ++ [s.term])) ∧
            Allowed ss [] (ts ++ [s.term]) f) :=
          fun f hf => Relation.not_has_of_isEmpty he ((hhas f).mpr hf)
        exact ⟨hi, fun f => iff_of_false (Relation.not_has_of_isEmpty he)
          (not_allowed_append hnone f)⟩
      | false =>
        rw [he, if_neg Bool.false_ne_true] at hrun
        have hrows : Rows ss (ts ++ [s.term]) c₁.relation :=
          ⟨hi, fun f => (Relation.allows_of_not_isEmpty he).trans (hhas f)⟩
        refine ih (hsource ▸ hs) hrows ?_ (fun x hx => hform x (List.mem_cons_of_mem _ hx))
          (hvars ▸ hfit.2) hrun
        intro u hu
        rcases List.mem_append.mp hu with hu | hu
        · exact hts u hu
        · exact List.mem_singleton.mp hu ▸ hsform
    · cases hrun

end Cursor

end TripleStore
