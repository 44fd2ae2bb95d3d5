import TripleStore.Proofs.Plan.Steps

/-!
# Queries that are refused

A term of three variables can only be run if one of them is recorded.  A query is
refused for the first term, in the order of its terms, for which none is.  Each
term before it either does not have the variables of this term or forgets them.

So a variable that is shared with an earlier term does not always help: in
`?s ?p y` followed by `?s ?q ?o` the first term forgets `?s`.
-/

namespace TripleStore

/-- None of the three variables of a term is recorded after some terms. -/
structure Term.Scans (done : List Term) (t : Term) : Prop where
  /-- All positions are variables. -/
  allOpen : t.openPositions = 3
  /-- What an earlier term shares with this one it forgets. -/
  forgotten : ∀ v ∈ t.roleVars, ∀ u ∈ done, v ∈ u.roleVars → u.Forgets v

example :
    let spy : Term := ⟨.free "?s", .free "?p", .bound Key.empty, default⟩
    let sqo : Term := ⟨.free "?s", .free "?q", .free "?o", default⟩
    "?s" ∈ spy.roleVars ∧ sqo.Scans [spy] := ⟨by decide, ⟨by decide, by decide⟩⟩

namespace Plan

variable {b b' : Bindings} {op : Operator} {t : Term} {e : Fault}

/-! ## Terms without an operator -/

theorem chooseTriple?_eq_none {s p o : String} :
    chooseTriple? b s p o = none ↔ s ∉ b ∧ p ∉ b ∧ o ∉ b := by
  simp only [chooseTriple?, Std.ExtTreeMap.contains_iff_mem]
  grind

/-- Only a term of three variables none of which is recorded has no operator. -/
theorem choose_eq_error : choose b t = .error e ↔
    t.openPositions = 3 ∧ (∀ v ∈ t.roleVars, v ∉ b) ∧ e = .wholeGraph t.text := by
  simp only [choose, Term.openPositions, Term.roleVars, Term.roles]
  cases t.subject.var? with
  | none =>
    cases t.link.var? with
    | none => cases t.object.var? with
      | none => simp
      | some o => simp
    | some p => cases t.object.var? with
      | none => simp
      | some o => simp
  | some s =>
    cases t.link.var? with
    | none => cases t.object.var? with
      | none => simp
      | some o => simp
    | some p => cases t.object.var? with
      | none => simp
      | some o =>
        cases h : chooseTriple? b s p o with
        | none =>
          have hvars : (s ∉ b ∧ p ∉ b ∧ o ∉ b) ∧ e = .wholeGraph t.text ↔
              e = .wholeGraph t.text := and_iff_right (chooseTriple?_eq_none.mp h)
          simpa [h, hvars] using eq_comm
        | some choice =>
          have hvars : ¬ (s ∉ b ∧ p ∉ b ∧ o ∉ b) := by simp [← chooseTriple?_eq_none, h]
          simpa [h] using fun hs hp ho => absurd ⟨hs, hp, ho⟩ hvars

/-! ## Runs of terms -/

/-- None of the three variables of a term is recorded at the start or by some terms. -/
def Unrecorded (b : Bindings) (done : List Term) (t : Term) : Prop :=
  t.openPositions = 3 ∧ ∀ v ∈ t.roleVars, v ∉ b ∧ ∀ u ∈ done, ¬ u.Records v

theorem unrecorded_nil : Unrecorded b [] t ↔ ∃ e, choose b t = .error e := by
  simp [Unrecorded, choose_eq_error]

/-- What a step records is recorded at the start of the rest. -/
theorem unrecorded_cons {u : Term} {done : List Term} (h : choose b u = .ok (op, b')) :
    Unrecorded b (u :: done) t ↔ Unrecorded b' done t := by
  simp [Unrecorded, mem_choose h, and_assoc]

theorem unrecorded_empty {done : List Term} : Unrecorded ∅ done t ↔ t.Scans done := by
  constructor
  · rintro ⟨hopen, hnone⟩
    refine ⟨hopen, fun v hv u hu hmem => ?_⟩
    by_contra hf
    exact (hnone v hv).2 u hu ⟨hmem, hf⟩
  · rintro ⟨hopen, hforgotten⟩
    refine ⟨hopen, fun v hv => ⟨by simp, fun u hu hrec => ?_⟩⟩
    exact hrec.2 (hforgotten v hv u hu hrec.1)

theorem stepsFor_cons_eq_error {ts : List Term} : stepsFor b (t :: ts) = .error e ↔
    choose b t = .error e ∨
      ∃ op b', choose b t = .ok (op, b') ∧ stepsFor b' ts = .error e := by
  rw [stepsFor, bind_eq_error, Prod.exists]
  refine or_congr_right (exists_congr fun op => exists_congr fun b' => and_congr_right fun _ => ?_)
  refine bind_eq_error.trans (or_iff_left ?_)
  rintro ⟨r, -, h⟩
  cases h

/-- Terms have no steps exactly if one of them has no operator, and the fault is that of the
first such term. -/
theorem stepsFor_eq_error {ts : List Term} : stepsFor b ts = .error e ↔
    ∃ done u rest, ts = done ++ u :: rest ∧ e = .wholeGraph u.text ∧ Unrecorded b done u ∧
      ∀ before w after, done = before ++ w :: after → ¬ Unrecorded b before w := by
  induction ts generalizing b with
  | nil => simp [stepsFor]
  | cons t ts ih =>
    rw [stepsFor_cons_eq_error]
    cases hc : choose b t with
    | error e' =>
      have hstuck : Unrecorded b [] t := unrecorded_nil.mpr ⟨e', hc⟩
      have htext : e' = .wholeGraph t.text := (choose_eq_error.mp hc).2.2
      constructor
      · rintro (h | ⟨_, _, h, -⟩)
        · cases h
          exact ⟨[], t, ts, rfl, htext, hstuck, by simp⟩
        · cases h
      · rintro ⟨done, u, rest, hsplit, he, -, hfirst⟩
        cases done with
        | nil =>
          obtain ⟨rfl, rfl⟩ := List.cons.inj hsplit
          exact .inl (by rw [he, htext])
        | cons w done =>
          obtain ⟨rfl, -⟩ := List.cons.inj hsplit
          exact absurd hstuck (hfirst [] t done rfl)
    | ok choice =>
      obtain ⟨op, b'⟩ := choice
      have hrun : ¬ Unrecorded b [] t := by simp [unrecorded_nil, hc]
      constructor
      · rintro (h | ⟨_, _, h, htail⟩)
        · cases h
        · cases h
          obtain ⟨done, u, rest, rfl, he, hu, hfirst⟩ := ih.mp htail
          refine ⟨t :: done, u, rest, rfl, he, (unrecorded_cons hc).mpr hu, ?_⟩
          intro before w after hsplit hw
          cases before with
          | nil =>
            obtain ⟨rfl, -⟩ := List.cons.inj hsplit
            exact hrun hw
          | cons x before =>
            obtain ⟨rfl, hdone⟩ := List.cons.inj hsplit
            exact hfirst before w after hdone ((unrecorded_cons hc).mp hw)
      · rintro ⟨done, u, rest, hsplit, he, hu, hfirst⟩
        cases done with
        | nil =>
          obtain ⟨rfl, -⟩ := List.cons.inj hsplit
          exact absurd hu hrun
        | cons w done =>
          obtain ⟨rfl, rfl⟩ := List.cons.inj hsplit
          refine .inr ⟨op, b', rfl, ih.mpr ⟨done, u, rest, rfl, he, (unrecorded_cons hc).mp hu, ?_⟩⟩
          intro before x after hdone hx
          exact hfirst (t :: before) x after (by rw [hdone]; rfl) ((unrecorded_cons hc).mpr hx)

end Plan

/-! ## Patterns that are no terms -/

namespace Term

variable {key : Uri → Except Fault Key} {p : Pattern} {u : Uri} {e : Fault}

/-- A pattern cannot be looked at in a version. -/
inductive Unreadable (key : Uri → Except Fault Key) (p : Pattern) : Fault → Prop
  | noPredicate : Unreadable key p (.noPredicate p.text)
  | variableInPath : Unreadable key p (.variableInPath p.text)
  | noKey {e : Fault} (u : Uri) (h : key u = .error e) : Unreadable key p e

theorem slotOf_eq_error (h : slotOf key u = .error e) : Unreadable key p e := by
  rw [slotOf] at h
  split at h
  · cases h
  · exact .noKey u (map_eq_error.mp h)

theorem segmentOf_eq_error {s : PathStep} (h : segmentOf key p s = .error e) :
    Unreadable key p e := by
  rw [segmentOf] at h
  split at h
  · cases h
    exact .variableInPath
  · rcases bind_eq_error.mp h with h | ⟨k, -, h⟩
    · exact .noKey s.predicate h
    · cases h

theorem linkOf_eq_error (h : linkOf key p = .error e) : Unreadable key p e := by
  rw [linkOf] at h
  split at h
  · cases h
    exact .noPredicate
  · split at h
    · cases h
    · exact .noKey _ (map_eq_error.mp h)
  · obtain ⟨s, -, hs⟩ := exists_of_mapM_eq_error (map_eq_error.mp h)
    exact segmentOf_eq_error hs

theorem ofPattern_eq_error (h : ofPattern key p = .error e) : Unreadable key p e := by
  rw [ofPattern] at h
  rcases bind_eq_error.mp h with h | ⟨link, -, h⟩
  · exact linkOf_eq_error h
  · rcases bind_eq_error.mp h with h | ⟨s, -, h⟩
    · exact slotOf_eq_error h
    · rcases bind_eq_error.mp h with h | ⟨o, -, h⟩
      · exact slotOf_eq_error h
      · cases h

end Term

theorem Dictionary.keyFor_eq_error {d : Dictionary} {graph : String} {u : Uri} {version : UInt64}
    {e : Fault} (h : d.keyFor graph u version = .error e) : ∃ known, e = .collision known u := by
  rw [keyFor] at h
  split at h
  · cases h
  · rcases bind_eq_error.mp h with h | ⟨_, -, h⟩
    · rw [checkFree] at h
      split at h
      · split at h
        · cases h
        · cases h
          exact ⟨_, rfl⟩
      · cases h
    · cases h

/-! ## Queries -/

/-- A fault that no key has is a fault of the terms or of their steps. -/
theorem Plan.ofQuery_eq_wholeGraph {key : Uri → Except Fault Key} {q : Query} {text : String}
    (hkey : ∀ u, key u ≠ .error (.wholeGraph text)) :
    ofQuery key q = .error (.wholeGraph text) ↔
      ∃ terms, q.patterns.mapM (Term.ofPattern key) = .ok terms ∧
        stepsFor ∅ ((order terms).map Prod.snd) = .error (.wholeGraph text) := by
  rw [ofQuery]
  constructor
  · intro h
    split at h
    · cases h
    · rcases bind_eq_error.mp h with hterms | ⟨terms, hterms, h⟩
      · obtain ⟨p, -, hp⟩ := exists_of_mapM_eq_error hterms
        cases Term.ofPattern_eq_error hp with
        | noKey u hu => exact absurd hu (hkey u)
      · rcases bind_eq_error.mp h with hsteps | ⟨_, -, h⟩
        · exact ⟨terms, hterms, hsteps⟩
        · cases h
  · rintro ⟨terms, hterms, hsteps⟩
    cases hq : q.patterns with
    | nil =>
      rw [hq] at hterms
      cases hterms
      cases hsteps
    | cons p ps =>
      rw [hq] at hterms
      exact bind_eq_error.mpr (.inr ⟨terms, hterms, bind_eq_error.mpr (.inl hsteps)⟩)

/-- A query is refused exactly if, in the order of its terms, one of three variables comes after
terms that forget whatever they share with it.  The first such term is named. -/
theorem Cursor.plan_eq_wholeGraph (t : Tables) (c : Cursor) (q : Query) (text : String) :
    c.plan t q = .error (.wholeGraph text) ↔
      ∃ terms, q.patterns.mapM (Term.ofPattern (c.keyOf t)) = .ok terms ∧
        ∃ done u rest, (Plan.order terms).map Prod.snd = done ++ u :: rest ∧ u.text = text ∧
          u.Scans done ∧ ∀ before w after, done = before ++ w :: after → ¬ w.Scans before := by
  have hkey : ∀ u, c.keyOf t u ≠ .error (.wholeGraph text) := by
    intro u h
    obtain ⟨known, heq⟩ := Dictionary.keyFor_eq_error h
    cases heq
  rw [plan, Plan.ofQuery_eq_wholeGraph hkey]
  refine exists_congr fun terms => and_congr_right fun _ => ?_
  rw [Plan.stepsFor_eq_error]
  simp only [Plan.unrecorded_empty, Fault.wholeGraph.injEq, eq_comm (a := text)]

end TripleStore
