import TripleStore.Proofs.Query.Solution
import TripleStore.Proofs.Walk.Supplied

/-!
# Rows of what a source supplies

A query may name anything, but its rows bind only keys that a source supplies.
What an operator finds comes of statements that were read, or of an entity that
was read and that no hop was taken from, or of keys that earlier rows bind.

So a property of all keys that are found in the entities of a version is a
property of all keys that rows bind.
-/

namespace TripleStore

open Reading Confined

variable {here : UInt32 × UInt64} {good : Key → Prop} {s : Source}

namespace Operator

variable {bound : List String} {op : Operator} {t : Term} {r : Relation}

theorem yields_linkedPairs (hs : s.Supplies (fun k => k.place = here) good)
    {segs : List Segment} {svar ovar : String} (hp : ∀ seg ∈ segs, seg.predicate.place = here)
    (hi : r.Indexed) (hw : r.Within good) :
    (linkedPairs segs r svar ovar).Yields s (Pairs good) := by
  have hfrom : (pairsFrom segs (r.valuesFor svar).toList).Confined good (Pairs good) :=
    Confined.pairsFrom (hw.values hi)
  rw [linkedPairs]
  split
  · exact yields_pathPairs hs hp
  · exact hfrom.yields hs
  · exact (pairsInto_confined (hw.values hi)).yields hs
  · exact (hfrom.yields hs).bind fun ps hps => yields_give fun p h => hps p (List.mem_filter.mp h).1

/-- What an operator finds that fits its term are good keys. -/
theorem found_yields (hs : s.Supplies (fun k => k.place = here) good) (ht : t.Formed here)
    (hi : r.Indexed) (hw : r.Within good) (hfit : op.Fits bound t) :
    (op.found t r).Yields s (Fine good) := by
  have hfine : ∀ {vars : List String} {ps : List (Key × Key)}, vars.length = 2 → Pairs good ps →
      Fine good (.tuples vars (tuplesOf ps)) := by
    intro vars ps hlen hps
    have hne : vars ≠ [] := fun hnil => by simp [hnil] at hlen
    exact fine_tuples hne (hlen ▸ tuplesOf_good hps)
  have hpath : ∀ {segs : List Segment}, t.link = .path segs → segs ≠ [] :=
    fun hl hnil => ht.nonempty (hnil ▸ hl)
  cases hfit with
  | check x y segs p =>
    exact (yields_objects hs (hpath rfl) (ht.subject x rfl)).bind fun _ _ =>
      yields_give ⟨trivial, trivial⟩
  | subjects x y segs p =>
    exact (yields_subjects hs (hpath rfl) (ht.object y rfl)).bind fun _ hks =>
      yields_give ⟨trivial, hks⟩
  | objects x y segs p =>
    exact (yields_objects hs (hpath rfl) (ht.subject x rfl)).bind fun _ hks =>
      yields_give ⟨trivial, hks⟩
  | predicates x y q p =>
    exact (yields_predicatesBetween hs (ht.subject x rfl)).bind fun _ hks =>
      yields_give ⟨trivial, hks⟩
  | ends x y segs p =>
    exact (yields_linkedPairs hs (ht.path segs rfl) hi hw).bind fun _ hps =>
      yields_give (hfine rfl hps)
  | subjectsOfBound x y segs p _ =>
    exact ((pairsInto_confined (hw.values hi)).yields hs).bind fun _ hps =>
      yields_give (hfine rfl hps)
  | objectsOfBound x y segs p _ =>
    exact ((Confined.pairsFrom (hw.values hi)).yields hs).bind fun _ hps =>
      yields_give (hfine rfl hps)
  | statementsInto x q y p =>
    exact (yields_statementsInto hs (ht.object y rfl)).bind fun _ hps =>
      yields_give (hfine rfl hps)
  | statementsFrom x q y p =>
    exact (yields_statementsFrom hs (ht.subject x rfl)).bind fun _ hps =>
      yields_give (hfine rfl hps)
  -- the others start from rows, and their terms have no keys
  | tripleFromSubject x q y p hx =>
    exact (found_confined ⟨nofun, nofun, nofun⟩ hi hw (.tripleFromSubject x q y p hx)).yields hs
  | tripleFromObject x q y p hy =>
    exact (found_confined ⟨nofun, nofun, nofun⟩ hi hw (.tripleFromObject x q y p hy)).yields hs
  | tripleFromPredicate x q y p hq =>
    exact (found_confined ⟨nofun, nofun, nofun⟩ hi hw (.tripleFromPredicate x q y p hq)).yields hs

end Operator

namespace Cursor

variable {t : Tables} {c c' : Cursor} {q : Query}

/-- Steps that succeed leave the rows among good keys. -/
theorem runSteps_within {bound : List String} {steps : List Step}
    (hs : (c.source t).Supplies (fun k => k.place = here) good) (hi : c.relation.Indexed)
    (hw : c.relation.Within good) (hform : ∀ x ∈ steps, x.term.Formed here)
    (hfit : Fitted bound steps) (h : runSteps t c steps = (.ok (), c')) :
    c'.relation.Within good := by
  induction steps generalizing c bound with
  | nil =>
    cases h
    exact hw
  | cons x steps ih =>
    obtain ⟨hx, hform⟩ := List.forall_mem_cons.mp hform
    rw [runSteps] at h
    split at h
    · next u c₁ hstep =>
      obtain ⟨change, hfound, happ, hsource, -⟩ := Step.run_ok hstep
      obtain ⟨hproper, hgood⟩ := Operator.found_yields hs hx hi hw hfit.1 change hfound
      obtain ⟨hi₁, hw₁⟩ := Relation.apply_within hi hw hproper hgood happ
      split at h
      · cases h
        exact hw₁
      · exact ih (hsource ▸ hs) hi₁ hw₁ hform hfit.2 h
    · cases h

/-- The rows of a query bind good keys. -/
theorem execute_within
    (hs : (c.source t).Supplies (fun k => k.place = (Checksum.ofText c.graph, c.version)) good)
    (hname : ∀ u k, c.keyOf t u = .ok k → k = c.nameOf u) (h : c.execute t q = (.ok (), c')) :
    c'.relation.Within good := by
  rw [execute] at h
  cases hp : c.plan t q with
  | error e =>
    rw [hp] at h
    cases h
  | ok p =>
    rw [hp] at h
    obtain ⟨hread, -, -, hfit⟩ := plan_spec hname hp
    refine runSteps_within (c := c.withVariables p.vars) hs (Relation.indexed_new p.vars)
      (Relation.within_of_isEmpty rfl) (fun x hx => ?_) hfit h
    obtain ⟨pat, -, hr⟩ := hread x hx
    exact hr.formed _ fun _ => rfl

end Cursor

end TripleStore
