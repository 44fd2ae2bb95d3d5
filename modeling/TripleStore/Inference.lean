import Std.Data.ExtTreeSet.Lemmas
import TripleStore.Uri

/-!
# Inverse properties

A statement `p owl:inverseOf q` says that `p` and `q` are each other's inverse.
It is a rule: from `s p o` follows `o q s`, and from `s q o` follows `o p s`.  The
closure of a list of statements holds the statements themselves, each once and in
order, and then all that follows by the rules among them.

Rules are read off the given statements and not off what follows from them.

A rule turns a statement around and replaces its predicate by a side of the rule,
so what follows from one statement has its two ends, in one order or the other,
and the predicate of some rule.  These are the candidates, and there are finitely
many of them.  The closure is computed in rounds.  Every round but the last adds a
candidate, so there are no more rounds than candidates.
-/

namespace TripleStore

/-- Two properties that are each other's inverse. -/
@[ext]
structure InverseRule where
  /-- The one property. -/
  predicate : Uri
  /-- The other one. -/
  inverse : Uri
deriving DecidableEq, Repr, Inhabited

/-- Sets of statements. -/
abbrev Triples := Std.ExtTreeSet Triple compare

namespace InverseRule

/-! ## Rules -/

/-- What follows from a statement by a rule.  If both sides are the predicate of
the statement the first one counts. -/
def infer? (r : InverseRule) (t : Triple) : Option Triple :=
  if t.predicate = r.predicate then some ⟨t.object, r.inverse, t.subject⟩
  else if t.predicate = r.inverse then some ⟨t.object, r.predicate, t.subject⟩
  else none

/-- A rule unless it is there already. -/
def addRule (rules : List InverseRule) (r : InverseRule) : List InverseRule :=
  if r ∈ rules then rules else rules ++ [r]

/-- The rules that statements declare, each once, in order. -/
def ofTriples (ts : List Triple) : List InverseRule :=
  ((ts.filter fun t => t.predicate = Uri.owlInverseOf).map fun t =>
    InverseRule.mk t.subject t.object).foldl addRule []

/-- What follows from a statement by each of some rules. -/
def consequences (rules : List InverseRule) (t : Triple) : List Triple :=
  rules.filterMap fun r => r.infer? t

end InverseRule

namespace Inference

/-! ## New statements -/

/-- The statements of a list that are not in a set and did not occur before, and
the set with them. -/
def fresh (seen : Triples) : List Triple → List Triple × Triples
  | [] => ([], seen)
  | t :: ts =>
    if t ∈ seen then fresh seen ts
    else
      let (news, seen) := fresh (seen.insert t) ts
      (t :: news, seen)

variable {seen : Triples} {ts : List Triple} {t : Triple}

/-- What is fresh in a list is what a set does not have. -/
theorem mem_fresh : t ∈ (fresh seen ts).1 ↔ t ∈ ts ∧ t ∉ seen := by
  fun_induction fresh seen ts with
  | case1 => simp
  | case2 seen u ts hu ih =>
    rw [ih, List.mem_cons]
    constructor
    · rintro ⟨ht, hn⟩
      exact ⟨.inr ht, hn⟩
    · rintro ⟨rfl | ht, hn⟩
      · exact absurd hu hn
      · exact ⟨ht, hn⟩
  | case3 seen u ts hu news seen' hnews ih =>
    rw [hnews] at ih
    rw [List.mem_cons, ih, Std.ExtTreeSet.mem_insert, Std.LawfulEqOrd.compare_eq_iff_eq,
      List.mem_cons, not_or]
    constructor
    · rintro (rfl | ⟨ht, -, hn⟩)
      · exact ⟨.inl rfl, hu⟩
      · exact ⟨.inr ht, hn⟩
    · rintro ⟨rfl | ht, hn⟩
      · exact .inl rfl
      · by_cases heq : u = t
        · exact .inl heq.symm
        · exact .inr ⟨ht, heq, hn⟩

/-- Afterwards the set has the statements of the list too. -/
theorem mem_fresh_seen : t ∈ (fresh seen ts).2 ↔ t ∈ seen ∨ t ∈ ts := by
  fun_induction fresh seen ts with
  | case1 => simp
  | case2 seen u ts hu ih =>
    rw [ih, List.mem_cons]
    constructor
    · exact Or.imp_right .inr
    · rintro (ht | rfl | ht)
      · exact .inl ht
      · exact .inl hu
      · exact .inr ht
  | case3 seen u ts hu news seen' hnews ih =>
    rw [hnews] at ih
    rw [ih, Std.ExtTreeSet.mem_insert, Std.LawfulEqOrd.compare_eq_iff_eq, List.mem_cons,
      eq_comm (a := u), or_comm (a := t = u), or_assoc]

theorem nodup_fresh (seen : Triples) (ts : List Triple) : (fresh seen ts).1.Nodup := by
  fun_induction fresh seen ts with
  | case1 => exact List.nodup_nil
  | case2 seen u ts hu ih => exact ih
  | case3 seen u ts hu news seen' hnews ih =>
    rw [hnews] at ih
    refine List.nodup_cons.mpr ⟨fun hmem => ?_, ih⟩
    have hold : u ∉ seen.insert u :=
      (mem_fresh.mp (show u ∈ (fresh (seen.insert u) ts).1 by rwa [hnews])).2
    exact hold (Std.ExtTreeSet.mem_insert_self)

/-! ## The candidates -/

/-- The predicates that rules can give to a statement. -/
def rulePredicates (rules : List InverseRule) : List Uri :=
  rules.flatMap fun r => [r.predicate, r.inverse]

/-- The statements of a list, and those that can follow from them. -/
def candidates (rules : List InverseRule) (ts : List Triple) : List Triple :=
  ts ++ ts.flatMap fun t => (rulePredicates rules).flatMap fun p =>
    [⟨t.subject, p, t.object⟩, ⟨t.object, p, t.subject⟩]

/-- The number of candidates. -/
def maxRounds (rules : List InverseRule) (ts : List Triple) : Nat :=
  ts.length + ts.length * (4 * rules.length)

theorem length_candidates (rules : List InverseRule) (ts : List Triple) :
    (candidates rules ts).length = maxRounds rules ts := by
  have hp : ∀ t : Triple, ((rulePredicates rules).flatMap fun p =>
      [Triple.mk t.subject p t.object, ⟨t.object, p, t.subject⟩]).length = 4 * rules.length := by
    intro t
    induction rules with
    | nil => rfl
    | cons r rules ih => simp [rulePredicates, List.length_flatMap] at ih ⊢; omega
  simp only [candidates, List.length_append, List.length_flatMap, hp, maxRounds,
    List.map_const', List.sum_replicate_nat]

/-! ## The closure -/

/-- Work in rounds, at most as many as the first argument says.  A round takes the
statements that the last one found and adds what follows from them and is new.
The answer is all that was added. -/
def saturate (rules : List InverseRule) : Nat → List Triple → Triples → List Triple
  | 0, _, _ => []
  | rounds + 1, found, seen =>
    let (news, seen) := fresh seen (found.flatMap (InverseRule.consequences rules))
    if news.isEmpty then [] else news ++ saturate rules rounds news seen

/-- The closure of statements under the rules among them. -/
def close (ts : List Triple) : List Triple :=
  let rules := InverseRule.ofTriples ts
  let (given, seen) := fresh ∅ ts
  given ++ saturate rules (maxRounds rules ts) given seen

end Inference

end TripleStore
