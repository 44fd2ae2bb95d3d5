import TripleStore.Proofs.Query.Operator
import TripleStore.Proofs.Walk.Confined

/-!
# Operators that stay among some keys

An operator is confined to the keys among which its term and the rows are, and
what it finds are such keys.  A relation that is changed by it stays among them.
-/

namespace TripleStore

open Reading Confined

/-! ## Changes and rows -/

namespace Relation

/-- The keys of a change are among some keys. -/
def Change.Within (good : Key → Prop) : Change → Prop
  | .check _ => True
  | .keys _ ks => All good ks
  | .tuples _ ts => ∀ t ∈ ts, ∀ k ∈ t, good k

/-- The keys that rows bind are among some keys. -/
def Within (good : Key → Prop) (r : Relation) : Prop :=
  ∀ f, r.Has f → ∀ v, f v ≠ Key.empty → good (f v)

variable {good : Key → Prop} {r r' found : Relation}

theorem within_of_isEmpty (h : r.isEmpty = true) : r.Within good :=
  fun _ hf => absurd hf (not_has_of_isEmpty h)

theorem Within.values (h : r.Within good) (hi : r.Indexed) {v : String} :
    ∀ k ∈ (r.valuesFor v).toList, good k := by
  intro k hk
  obtain ⟨hne, row, hrow, rfl⟩ := hi.mem_valuesFor.mp (Std.ExtTreeSet.mem_toList.mp hk)
  exact h _ ⟨row, hrow, rfl⟩ v hne

theorem Joined.within {on : List String} (h : Joined r found on r') (hr : r.Indexed)
    (hf : found.Indexed) (hw : r.Within good) (hw' : found.Within good) : r'.Within good := by
  intro f hhas v hv
  obtain ⟨a, b, ha, hb, -, rfl⟩ := (h.has_iff hr hf).mp hhas
  rw [overlay] at hv ⊢
  split
  · next he =>
    rw [if_pos he] at hv
    exact hw a ha v hv
  · next he => exact hw' b hb v he

theorem combine_within (h : r.Indexed) (hf : found.Indexed) (hw : r.Within good)
    (hw' : found.Within good) (hc : r.combine found = (.ok (), r')) :
    r'.Indexed ∧ r'.Within good := by
  rw [combine_eq h] at hc
  have hj := join_spec h.base hf hc
  refine ⟨hj.indexed, hj.within h.base hf (fun f hhas v hv => ?_) hw'⟩
  have hf := (has_base r).mp hhas
  rw [Allows] at hf
  split at hf
  · subst hf
    exact absurd rfl hv
  · exact hw f hf v hv

theorem insertAll_within {vars : List String} {tuples : List (List Key)} (h : r.Indexed)
    (he : r.isEmpty = true) (hne : vars ≠ []) (hlen : ∀ t ∈ tuples, t.length = vars.length)
    (hw : ∀ t ∈ tuples, ∀ k ∈ t, good k) (hc : r.insertAll vars tuples = (.ok (), r')) :
    r'.Indexed ∧ r'.Within good := by
  obtain ⟨hi, -, hhas⟩ :=
    insertAll_spec h (fun g hg => absurd hg (not_has_of_isEmpty he)) hne hlen hc
  refine ⟨hi, fun f hf v hv => ?_⟩
  obtain ⟨hb, hmem⟩ := ((hhas f).mp hf).resolve_left (not_has_of_isEmpty he)
  exact hw _ hmem _ (List.mem_map.mpr ⟨v, (hb v).mp hv, rfl⟩)

theorem bindTuples_within {vars : List String} {tuples : List (List Key)} (h : r.Indexed)
    (hw : r.Within good) (hne : vars ≠ []) (hlen : ∀ t ∈ tuples, t.length = vars.length)
    (hw' : ∀ t ∈ tuples, ∀ k ∈ t, good k) (hc : r.bindTuples vars tuples = (.ok (), r')) :
    r'.Indexed ∧ r'.Within good := by
  rw [bindTuples] at hc
  split at hc
  · next u found hfound =>
    obtain ⟨hi, hwf⟩ := insertAll_within (indexed_new vars) rfl hne hlen hw' hfound
    exact combine_within h hi hw hwf hc
  · cases hc

/-- A change among some keys leaves the rows among them. -/
theorem apply_within {change : Change} (h : r.Indexed) (hw : r.Within good) (hp : change.Proper)
    (hw' : change.Within good) (hc : r.apply change = (.ok (), r')) :
    r'.Indexed ∧ r'.Within good := by
  cases change with
  | check holds =>
    obtain rfl : r.check holds = r' := (Prod.mk.inj hc).2
    cases holds with
    | false => exact ⟨h.clear, within_of_isEmpty rfl⟩
    | true =>
      by_cases he : r.isEmpty = true
      · simp only [check, he, if_true]
        refine ⟨h.addUnit, fun f hf v hv => ?_⟩
        obtain ⟨row, hrow, rfl⟩ := hf
        have hnil : r.rows = #[] := by simpa [isEmpty] using he
        obtain rfl : row = Row.unit := by simpa [Relation.addUnit, hnil] using hrow
        exact absurd (valueIn_unit _ v) hv
      · rw [Bool.not_eq_true] at he
        simp only [check, he, if_true, Bool.false_eq_true, if_false]
        exact ⟨h, hw⟩
  | keys var keys =>
    have hlen : ∀ t ∈ keys.toList.map (fun k => [k]), t.length = [var].length := by
      intro t ht
      obtain ⟨k, -, rfl⟩ := List.mem_map.mp ht
      rfl
    have hgood : ∀ t ∈ keys.toList.map (fun k => [k]), ∀ k ∈ t, good k := by
      intro t ht k hk
      obtain ⟨l, hl, rfl⟩ := List.mem_map.mp ht
      obtain rfl := List.mem_singleton.mp hk
      exact all_toList hw' k hl
    have hc : r.bindKeys var keys = (.ok (), r') := hc
    unfold bindKeys at hc
    simp only at hc
    split at hc
    · next he =>
      exact insertAll_within h (Bool.and_eq_true_iff.mp he).1 (by simp) hlen hgood hc
    · exact bindTuples_within h hw (by simp) hlen hgood hc
  | tuples vars tuples => exact bindTuples_within h hw hp.1 hp.2 hw' hc

end Relation

/-! ## Operators -/

namespace Operator

variable {good : Key → Prop}

theorem pairsInto_confined {segs : List Segment} {ks : List Key} (hks : ∀ k ∈ ks, good k) :
    (pairsInto segs ks).Confined good (Pairs good) := by
  induction ks with
  | nil => exact give pairs_nil
  | cons k ks ih =>
    have hk := hks k List.mem_cons_self
    refine (Confined.subjects hk).bind fun subs hsubs => ?_
    refine (ih fun k h => hks k (List.mem_cons_of_mem _ h)).bind fun rest hrest => ?_
    refine give (pairs_append (fun p hp => ?_) hrest)
    obtain ⟨s, hs, rfl⟩ := List.mem_map.mp hp
    exact ⟨all_toList hsubs s hs, hk⟩

theorem linkedPairs_confined {segs : List Segment} {r : Relation} {s o : String}
    (hp : ∀ seg ∈ segs, good seg.predicate) (hv : ∀ v, ∀ k ∈ (r.valuesFor v).toList, good k) :
    (linkedPairs segs r s o).Confined good (Pairs good) := by
  rw [linkedPairs]
  split
  · exact Confined.pathPairs hp
  · exact Confined.pairsFrom (hv s)
  · exact pairsInto_confined (hv o)
  · exact (Confined.pairsFrom (hv s)).bind fun ps hps =>
      give fun p h => hps p (List.mem_filter.mp h).1

/-- The tuples of a list have the same length and are of some keys. -/
def Tuples (good : Key → Prop) (n : Nat) (ts : List (List Key)) : Prop :=
  ∀ t ∈ ts, t.length = n ∧ ∀ k ∈ t, good k

theorem tuplesOf_good {ps : List (Key × Key)} (h : Pairs good ps) :
    Tuples good 2 (tuplesOf ps) := by
  intro t ht
  obtain ⟨p, hp, rfl⟩ := List.mem_map.mp ht
  refine ⟨rfl, fun k hk => ?_⟩
  rcases List.mem_cons.mp hk with rfl | hk
  · exact (h p hp).1
  · exact List.mem_singleton.mp hk ▸ (h p hp).2

theorem around_confined {statements : Key → Reading (List (List Key))} {n : Nat} {ks : List Key}
    (h : ∀ k ∈ ks, (statements k).Confined good (Tuples good n)) :
    (around statements ks).Confined good (Tuples good n) := by
  induction ks with
  | nil => exact give (List.forall_mem_nil _)
  | cons k ks ih =>
    refine (h k List.mem_cons_self).bind fun ts hts => ?_
    refine (ih fun k hk => h k (List.mem_cons_of_mem _ hk)).bind fun rest hrest => ?_
    exact give fun t ht => (List.mem_append.mp ht).elim (hts t) (hrest t)

/-- The tuples of three keys that are made of pairs. -/
theorem triples_confined {m : Reading (List (Key × Key))} {f : Key × Key → List Key}
    (hm : m.Confined good (Pairs good))
    (hf : ∀ p, good p.1 → good p.2 → (f p).length = 3 ∧ ∀ k ∈ f p, good k) :
    (do return (← m).map f : Reading (List (List Key))).Confined good (Tuples good 3) := by
  refine hm.bind fun ps hps => give fun t ht => ?_
  obtain ⟨p, hp, rfl⟩ := List.mem_map.mp ht
  exact hf p (hps p hp).1 (hps p hp).2

/-- A change that can be applied and is among some keys. -/
def Fine (good : Key → Prop) (change : Relation.Change) : Prop :=
  change.Proper ∧ change.Within good

theorem fine_tuples {vars : List String} {ts : List (List Key)} (hne : vars ≠ [])
    (h : Tuples good vars.length ts) : Fine good (.tuples vars ts) :=
  ⟨⟨hne, fun t ht => (h t ht).1⟩, fun t ht => (h t ht).2⟩

/-- An operator that fits its term is confined to the keys of the term and the rows. -/
theorem found_confined {bound : List String} {op : Operator} {t : Term} {r : Relation}
    (ht : t.Within good) (hi : r.Indexed) (hw : r.Within good) (hfit : op.Fits bound t) :
    (op.found t r).Confined good (Fine good) := by
  have hthree : ∀ {x y z : Key}, good x → good y → good z →
      [x, y, z].length = 3 ∧ ∀ k ∈ [x, y, z], good k := by
    intro x y z hx hy hz
    refine ⟨rfl, fun k hk => ?_⟩
    simp only [List.mem_cons, List.not_mem_nil, or_false] at hk
    rcases hk with rfl | rfl | rfl
    · exact hx
    · exact hy
    · exact hz
  -- the term has the variables that the operator asks for, so asking reads nothing
  cases hfit with
  | check s o segs p =>
    exact (Confined.objects (ht.subject s rfl)).bind fun ks _ => give ⟨trivial, trivial⟩
  | subjects s o segs p =>
    exact (Confined.subjects (ht.object o rfl)).bind fun ks hks => give ⟨trivial, hks⟩
  | objects s o segs p =>
    exact (Confined.objects (ht.subject s rfl)).bind fun ks hks => give ⟨trivial, hks⟩
  | predicates s o q p =>
    exact (Confined.predicatesBetween (ht.subject s rfl)).bind fun ks hks => give ⟨trivial, hks⟩
  | ends s o segs p =>
    exact (linkedPairs_confined (ht.path segs rfl) fun _ => hw.values hi).bind fun ps hps =>
      give (fine_tuples (List.cons_ne_nil _ _) (tuplesOf_good hps))
  | subjectsOfBound s o segs p _ =>
    exact (pairsInto_confined (hw.values hi)).bind fun ps hps =>
      give (fine_tuples (List.cons_ne_nil _ _) (tuplesOf_good hps))
  | objectsOfBound s o segs p _ =>
    exact (Confined.pairsFrom (hw.values hi)).bind fun ps hps =>
      give (fine_tuples (List.cons_ne_nil _ _) (tuplesOf_good hps))
  | statementsInto s q o p =>
    exact (Confined.statementsInto (ht.object o rfl)).bind fun ps hps =>
      give (fine_tuples (List.cons_ne_nil _ _) (tuplesOf_good hps))
  | statementsFrom s q o p =>
    exact (Confined.statementsFrom (ht.subject s rfl)).bind fun ps hps =>
      give (fine_tuples (List.cons_ne_nil _ _) (tuplesOf_good hps))
  | tripleFromSubject s q o p _ =>
    refine (around_confined fun k hk => ?_).bind fun ts hts =>
      give (fine_tuples (List.cons_ne_nil _ _) hts)
    have hk := hw.values hi k hk
    exact triples_confined (Confined.statementsFrom hk) fun p hx hy => hthree hk hx hy
  | tripleFromObject s q o p _ =>
    refine (around_confined fun k hk => ?_).bind fun ts hts =>
      give (fine_tuples (List.cons_ne_nil _ _) hts)
    have hk := hw.values hi k hk
    exact triples_confined (Confined.statementsInto hk) fun p hx hy => hthree hx hy hk
  | tripleFromPredicate s q o p _ =>
    refine (around_confined fun k hk => ?_).bind fun ts hts =>
      give (fine_tuples (List.cons_ne_nil _ _) hts)
    have hk := hw.values hi k hk
    exact triples_confined (Confined.predicatePairs hk) fun p hx hy => hthree hx hk hy

/-! ## Operators on any term -/

/-- A variable is asked of the term and not of the source. -/
theorem needed_confined (t : Term) (role : String) (var : Option String) :
    (needed t role var).Confined good fun _ => True := by
  cases var with
  | some v => exact give trivial
  | none => exact fail _

/-- Whatever the term is, an operator logs what it read and nothing else. -/
theorem found_confined_all (op : Operator) (t : Term) (r : Relation) :
    (op.found t r).Confined (fun _ => True) fun _ => True := by
  have hany : ∀ {ks : List Key}, ∀ k ∈ ks, True := fun _ _ => trivial
  have hthree : ∀ {x y z : Key}, [x, y, z].length = 3 ∧ ∀ k ∈ [x, y, z], True := ⟨rfl, hany⟩
  have hneeded : ∀ role var, (needed t role var).Confined (fun _ => True) fun _ => True :=
    needed_confined t
  have hsubject := hneeded "subject" t.subject.var?
  have hpredicate := hneeded "predicate" t.link.var?
  have hobject := hneeded "object" t.object.var?
  cases op with
  | check => exact (Confined.objects trivial).bind fun _ _ => give trivial
  | subjects =>
    exact hsubject.bind fun _ _ => (Confined.subjects trivial).bind fun _ _ => give trivial
  | objects =>
    exact hobject.bind fun _ _ => (Confined.objects trivial).bind fun _ _ => give trivial
  | predicates =>
    exact hpredicate.bind fun _ _ =>
      (Confined.predicatesBetween trivial).bind fun _ _ => give trivial
  | ends =>
    exact hsubject.bind fun _ _ => hobject.bind fun _ _ =>
      (linkedPairs_confined (fun _ _ => trivial) fun _ => hany).bind fun _ _ => give trivial
  | subjectsOfBound =>
    exact hsubject.bind fun _ _ => hobject.bind fun _ _ =>
      (pairsInto_confined hany).bind fun _ _ => give trivial
  | objectsOfBound =>
    exact hsubject.bind fun _ _ => hobject.bind fun _ _ =>
      (Confined.pairsFrom hany).bind fun _ _ => give trivial
  | statementsInto =>
    exact hsubject.bind fun _ _ => hpredicate.bind fun _ _ =>
      (Confined.statementsInto trivial).bind fun _ _ => give trivial
  | statementsFrom =>
    exact hpredicate.bind fun _ _ => hobject.bind fun _ _ =>
      (Confined.statementsFrom trivial).bind fun _ _ => give trivial
  | tripleFromSubject =>
    exact hsubject.bind fun _ _ => hpredicate.bind fun _ _ => hobject.bind fun _ _ =>
      (around_confined fun _ _ => triples_confined (Confined.statementsFrom trivial)
        fun _ _ _ => hthree).bind fun _ _ => give trivial
  | tripleFromObject =>
    exact hsubject.bind fun _ _ => hpredicate.bind fun _ _ => hobject.bind fun _ _ =>
      (around_confined fun _ _ => triples_confined (Confined.statementsInto trivial)
        fun _ _ _ => hthree).bind fun _ _ => give trivial
  | tripleFromPredicate =>
    exact hsubject.bind fun _ _ => hpredicate.bind fun _ _ => hobject.bind fun _ _ =>
      (around_confined fun _ _ => triples_confined (Confined.predicatePairs trivial)
        fun _ _ _ => hthree).bind fun _ _ => give trivial

end Operator

end TripleStore
