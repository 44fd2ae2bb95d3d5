import TripleStore.Plan.Basic
import TripleStore.Proofs.Outcome
import TripleStore.Proofs.Plan.Order
import TripleStore.Proofs.Query.Operator

/-!
# The steps of a plan

The operators of a plan fit their terms.  An operator that starts from a variable
is chosen only if the variable is recorded, and what is recorded are variables of
the terms before.

Not all of them are.  If the predicate of a term is a variable and one of its ends
is known, the predicate is recorded under the other end, but that end is not
recorded itself.  The step *forgets* it.
-/

namespace TripleStore

/-! ## What is recorded -/

namespace Bindings

variable {b : Bindings} {v var parent : String}

@[simp] theorem mem_bindAlone : v ∈ b.bindAlone var ↔ v ∈ b ∨ v = var := by
  rw [bindAlone, Std.ExtTreeMap.mem_insert, Std.LawfulEqOrd.compare_eq_iff_eq, or_comm, eq_comm]

theorem mem_of_isChild (h : b.isChild var = true) : var ∈ b := by
  rw [isChild] at h
  split at h
  · next hget =>
    rw [Std.ExtTreeMap.mem_iff_isSome_getElem?, hget]
    rfl
  · cases h

@[simp] theorem mem_keepOrBind : v ∈ b.keepOrBind var ↔ v ∈ b ∨ v = var := by
  rw [keepOrBind]
  split
  · next h =>
    have hvar := mem_of_isChild h
    constructor
    · exact .inl
    · rintro (hv | rfl)
      · exact hv
      · exact hvar
  · exact mem_bindAlone

@[simp] theorem mem_bindUnder :
    v ∈ b.bindUnder parent var ↔ v ∈ b ∨ (v = var ∧ parent ≠ var) := by
  rw [bindUnder]
  split
  · next h => simp [h]
  · next h =>
    rw [Std.ExtTreeMap.mem_insert, Std.LawfulEqOrd.compare_eq_iff_eq]
    simp [h, or_comm, eq_comm]

end Bindings

namespace Term

/-- The variable at one end, if the other end is known and the predicate is a variable. -/
def Forgets (t : Term) (v : String) : Prop :=
  t.link.var?.isSome = true ∧
    ((t.subject.var? = some v ∧ t.object.var? = none) ∨
      (t.subject.var? = none ∧ t.object.var? = some v))

instance (t : Term) (v : String) : Decidable (t.Forgets v) :=
  inferInstanceAs (Decidable (_ ∧ _))

/-- The variables that a step for a term records. -/
def Records (t : Term) (v : String) : Prop := v ∈ t.roleVars ∧ ¬ t.Forgets v

end Term

namespace Plan

variable {b b' : Bindings} {op : Operator} {v : String}

theorem mem_chooseEnds {s o : String} :
    v ∈ (chooseEnds b s o).2 ↔ v ∈ b ∨ v = s ∨ v = o := by
  rw [chooseEnds]
  cases hs : b.contains s with
  | true =>
    have hs := Std.ExtTreeMap.contains_iff_mem.mp hs
    cases ho : b.contains o with
    | true =>
      have ho := Std.ExtTreeMap.contains_iff_mem.mp ho
      simp only
      split
      · grind [Bindings.mem_bindUnder]
      · grind [Bindings.mem_bindUnder]
    | false => grind [Bindings.mem_bindUnder]
  | false =>
    cases ho : b.contains o with
    | true =>
      have ho := Std.ExtTreeMap.contains_iff_mem.mp ho
      grind [Bindings.mem_bindUnder]
    | false => grind [Bindings.mem_bindUnder, Bindings.mem_bindAlone]

theorem mem_chooseTriple? {s p o : String} {choice : Operator × Bindings}
    (h : chooseTriple? b s p o = some choice) :
    v ∈ choice.2 ↔ v ∈ b ∨ v = s ∨ v = p ∨ v = o := by
  rw [chooseTriple?] at h
  split at h
  · next hs =>
    have hs := Std.ExtTreeMap.contains_iff_mem.mp hs
    obtain rfl := Option.some.inj h
    grind [Bindings.mem_bindUnder]
  · split at h
    · next ho =>
      have ho := Std.ExtTreeMap.contains_iff_mem.mp ho
      obtain rfl := Option.some.inj h
      grind [Bindings.mem_bindUnder]
    · split at h
      · next hp =>
        have hp := Std.ExtTreeMap.contains_iff_mem.mp hp
        obtain rfl := Option.some.inj h
        grind [Bindings.mem_bindUnder]
      · cases h

/-- A step records the variables of its term, without one that it forgets. -/
theorem mem_choose {t : Term} (h : choose b t = .ok (op, b')) :
    v ∈ b' ↔ v ∈ b ∨ t.Records v := by
  rw [Term.Records, Term.mem_roleVars, Term.Forgets]
  rw [choose] at h
  cases hs : t.subject.var? with
  | none =>
    cases hp : t.link.var? with
    | none =>
      cases ho : t.object.var? with
      | none =>
        simp only [hs, hp, ho] at h
        cases h
        simp
      | some o =>
        simp only [hs, hp, ho] at h
        cases h
        simp [eq_comm]
    | some p =>
      cases ho : t.object.var? with
      | none =>
        simp only [hs, hp, ho] at h
        cases h
        simp [eq_comm]
      | some o =>
        simp only [hs, hp, ho] at h
        cases h
        simp only [Bindings.mem_bindUnder]
        grind
  | some s =>
    cases hp : t.link.var? with
    | none =>
      cases ho : t.object.var? with
      | none =>
        simp only [hs, hp, ho] at h
        cases h
        simp [eq_comm]
      | some o =>
        simp only [hs, hp, ho] at h
        obtain rfl : (chooseEnds b s o).2 = b' := congrArg Prod.snd (Except.ok.inj h)
        simp [mem_chooseEnds, eq_comm]
    | some p =>
      cases ho : t.object.var? with
      | none =>
        simp only [hs, hp, ho] at h
        cases h
        simp only [Bindings.mem_bindUnder]
        grind
      | some o =>
        simp only [hs, hp, ho] at h
        split at h
        · next choice hchoice =>
          cases h
          simp [mem_chooseTriple? hchoice, eq_comm]
        · cases h

end Plan

/-! ## Operators fit -/

/-- The operators of steps fit their terms, if rows bind some variables at the start. -/
def Fitted : List String → List Step → Prop
  | _, [] => True
  | bound, s :: ss => s.operator.Fits bound s.term ∧ Fitted (bound ++ s.term.roleVars) ss

namespace Plan

variable {b b' : Bindings} {op : Operator} {bound : List String}

theorem mem_of_contains {v : String} (hb : ∀ v ∈ b, v ∈ bound) (hv : b.contains v = true) :
    v ∈ bound := hb v (Std.ExtTreeMap.contains_iff_mem.mp hv)

theorem chooseEnds_fits {s o : String} {segs : List Segment} {p : Pattern}
    (hb : ∀ v ∈ b, v ∈ bound) :
    (chooseEnds b s o).1.Fits bound ⟨.free s, .path segs, .free o, p⟩ := by
  rw [chooseEnds]
  split
  · split
    · exact .ends s o segs p
    · exact .ends s o segs p
  · exact .subjectsOfBound s o segs p (mem_of_contains hb (by assumption))
  · exact .objectsOfBound s o segs p (mem_of_contains hb (by assumption))
  · exact .ends s o segs p

theorem chooseTriple?_fits {s q o : String} {p : Pattern} {choice : Operator × Bindings}
    (hb : ∀ v ∈ b, v ∈ bound) (h : chooseTriple? b s q o = some choice) :
    choice.1.Fits bound ⟨.free s, .free q, .free o, p⟩ := by
  rw [chooseTriple?] at h
  split at h
  · next hs =>
    obtain rfl := Option.some.inj h
    exact .tripleFromSubject s q o p (mem_of_contains hb hs)
  · split at h
    · next ho =>
      obtain rfl := Option.some.inj h
      exact .tripleFromObject s q o p (mem_of_contains hb ho)
    · split at h
      · next hq =>
        obtain rfl := Option.some.inj h
        exact .tripleFromPredicate s q o p (mem_of_contains hb hq)
      · cases h

/-- The operator that is chosen fits. -/
theorem choose_fits {t : Term} (hb : ∀ v ∈ b, v ∈ bound) (h : choose b t = .ok (op, b')) :
    op.Fits bound t := by
  obtain ⟨subject, link, object, p⟩ := t
  cases subject with
  | bound s =>
    cases link with
    | path segs =>
      cases object with
      | bound o =>
        cases h
        exact .check s o segs p
      | free o =>
        cases h
        exact .objects s o segs p
    | free q =>
      cases object with
      | bound o =>
        cases h
        exact .predicates s o q p
      | free o =>
        cases h
        exact .statementsFrom s q o p
  | free s =>
    cases link with
    | path segs =>
      cases object with
      | bound o =>
        cases h
        exact .subjects s o segs p
      | free o =>
        obtain rfl : (chooseEnds b s o).1 = op := congrArg Prod.fst (Except.ok.inj h)
        exact chooseEnds_fits hb
    | free q =>
      cases object with
      | bound o =>
        cases h
        exact .statementsInto s q o p
      | free o =>
        simp only [choose, Slot.var?, Link.var?] at h
        split at h
        · next choice hchoice =>
          cases h
          exact chooseTriple?_fits hb hchoice
        · cases h

/-- The steps for terms are one for each, and their operators fit. -/
theorem stepsFor_spec {ts : List Term} {steps : List Step} (hb : ∀ v ∈ b, v ∈ bound)
    (h : stepsFor b ts = .ok (steps, b')) : steps.map Step.term = ts ∧ Fitted bound steps := by
  induction ts generalizing b bound steps with
  | nil =>
    obtain ⟨rfl, rfl⟩ := Prod.mk.inj (Except.ok.inj h)
    exact ⟨rfl, trivial⟩
  | cons t ts ih =>
    rw [stepsFor] at h
    obtain ⟨⟨op, b₁⟩, hc, h⟩ := bind_eq_ok.mp h
    obtain ⟨⟨rest, b₂⟩, hs, h⟩ := bind_eq_ok.mp h
    obtain ⟨rfl, rfl⟩ := Prod.mk.inj (Except.ok.inj h)
    have hb₁ : ∀ v ∈ b₁, v ∈ bound ++ t.roleVars := fun v hv =>
      List.mem_append.mpr (((mem_choose hc).mp hv).imp (hb v) And.left)
    obtain ⟨hterms, hfitted⟩ := ih hb₁ hs
    exact ⟨by rw [List.map_cons, hterms], choose_fits hb hc, hfitted⟩

/-- After steps are recorded what was recorded before and what their terms record. -/
theorem mem_stepsFor {ts : List Term} {steps : List Step} {v : String}
    (h : stepsFor b ts = .ok (steps, b')) : v ∈ b' ↔ v ∈ b ∨ ∃ t ∈ ts, t.Records v := by
  induction ts generalizing b steps with
  | nil =>
    obtain ⟨-, rfl⟩ := Prod.mk.inj (Except.ok.inj h)
    simp
  | cons t ts ih =>
    rw [stepsFor] at h
    obtain ⟨⟨op, b₁⟩, hc, h⟩ := bind_eq_ok.mp h
    obtain ⟨⟨rest, b₂⟩, hs, h⟩ := bind_eq_ok.mp h
    obtain ⟨-, rfl⟩ := Prod.mk.inj (Except.ok.inj h)
    rw [ih hs, mem_choose hc, or_assoc, List.exists_mem_cons_iff]

/-- The first steps for terms are those for the first terms, and the rest go on from what is
recorded then. -/
theorem stepsFor_append {ts : List Term} {done rest : List Step}
    (h : stepsFor b ts = .ok (done ++ rest, b')) :
    ∃ mid, stepsFor b (done.map Step.term) = .ok (done, mid) ∧
      stepsFor mid (rest.map Step.term) = .ok (rest, b') := by
  induction done generalizing b ts with
  | nil =>
    obtain ⟨rfl, -⟩ := stepsFor_spec (fun v => Std.ExtTreeMap.mem_keys.mpr) h
    exact ⟨b, rfl, h⟩
  | cons s done ih =>
    cases ts with
    | nil => cases (Prod.mk.inj (Except.ok.inj h)).1
    | cons t ts =>
      rw [stepsFor] at h
      obtain ⟨⟨op, b₁⟩, hc, h⟩ := bind_eq_ok.mp h
      obtain ⟨⟨later, b₂⟩, hs, h⟩ := bind_eq_ok.mp h
      obtain ⟨hsteps, rfl⟩ := Prod.mk.inj (Except.ok.inj h)
      obtain ⟨rfl, rfl⟩ := List.cons.inj hsteps
      obtain ⟨mid, hdone, hrest⟩ := ih hs
      refine ⟨mid, ?_, hrest⟩
      rw [List.map_cons, stepsFor, hc]
      show (stepsFor b₁ (done.map Step.term) >>= _) = _
      rw [hdone]
      rfl

/-- A plan has a step for each term of the query, in the order of the terms, with an operator
that fits. -/
theorem ofQuery_spec {key : Uri → Except Fault Key} {q : Query} {p : Plan}
    (h : ofQuery key q = .ok p) :
    ∃ terms, q.patterns.mapM (Term.ofPattern key) = .ok terms ∧
      p.steps.map Step.term = (order terms).map Prod.snd ∧ Fitted [] p.steps := by
  rw [ofQuery] at h
  split at h
  · cases h
  · obtain ⟨terms, ht, h⟩ := bind_eq_ok.mp h
    obtain ⟨⟨steps, b⟩, hs, h⟩ := bind_eq_ok.mp h
    obtain rfl := Except.ok.inj h
    have hstart : ∀ v ∈ (∅ : Bindings), v ∈ ([] : List String) := fun v hv => by simp at hv
    obtain ⟨hterms, hfit⟩ := stepsFor_spec hstart hs
    exact ⟨terms, ht, hterms, hfit⟩

/-- The steps of a plan are those for their terms. -/
theorem stepsFor_of_ofQuery {key : Uri → Except Fault Key} {q : Query} {p : Plan}
    (h : ofQuery key q = .ok p) :
    stepsFor ∅ (p.steps.map Step.term) = .ok (p.steps, p.bindings) := by
  rw [ofQuery] at h
  split at h
  · cases h
  · obtain ⟨terms, -, h⟩ := bind_eq_ok.mp h
    obtain ⟨⟨steps, b⟩, hs, h⟩ := bind_eq_ok.mp h
    obtain rfl := Except.ok.inj h
    obtain ⟨hterms, -⟩ := stepsFor_spec (fun v => Std.ExtTreeMap.mem_keys.mpr) hs
    exact hterms.symm ▸ hs

end Plan

end TripleStore
