import TripleStore.Proofs.Query.Rekeyed
import TripleStore.Proofs.Query.Solution

/-!
# Queries that cannot tell tables apart

A query reads records of one version only, as the records of a version hold keys
of that version.  So two cursors on a version end with the same bindings if their
tables have the same records there and if the names in the query stand for the
same keys, whatever else the tables hold.

The order of the argument is that of a query: the terms are the same, so the
plans are, so each step finds the same change and leaves the same rows.
-/

namespace TripleStore

/-! ## The same plan -/

/-- A query has one plan, if the names in it have one key each. -/
theorem Plan.ofQuery_unique {key key' : Uri → Except Fault Key} {q : Query} {p p' : Plan}
    (h : ∀ pat ∈ q.patterns, ∀ u ∈ pat.terms, u.isVariable = false →
      ∀ k k', key u = .ok k → key' u = .ok k' → k = k')
    (hp : ofQuery key q = .ok p) (hp' : ofQuery key' q = .ok p') : p = p' := by
  rw [ofQuery] at hp hp'
  split at hp
  · cases hp
  · next hne =>
    rw [if_neg hne] at hp'
    obtain ⟨terms, hterms, hp⟩ := bind_eq_ok.mp hp
    obtain ⟨terms', hterms', hp'⟩ := bind_eq_ok.mp hp'
    have heq : terms = terms' := by
      refine mapM_unique (fun pat hpat t t' ht ht' => ?_) hterms hterms'
      exact (Term.rekey_id t).symm.trans (Term.ofPattern_rekey (h pat hpat) ht ht')
    subst heq
    exact Except.ok.inj (hp.symm.trans hp')

/-! ## The same rows -/

namespace Cursor

variable {t t' : Tables} {c c' d d' : Cursor} {here : UInt32 × UInt64} {q : Query}

/-- What two cursors read of a place: the same, and keys of the place only. -/
structure Alike (here : UInt32 × UInt64) (s s' : Source) : Prop where
  /-- Entities of the place hold keys of the place. -/
  closed : s.Closed fun k => k.place = here
  /-- The entities of the place are the same. -/
  same : ∀ k : Key, k.place = here → s k = s' k

/-- Two cursors that read the same of a place and have the same rows, of keys of the place. -/
structure Matched (here : UInt32 × UInt64) (t t' : Tables) (c c' : Cursor) : Prop where
  /-- They read the same. -/
  sources : Alike here (c.source t) (c'.source t')
  /-- They have the same rows. -/
  relation : c.relation = c'.relation
  /-- The index of the rows is right. -/
  indexed : c.relation.Indexed
  /-- The rows bind keys of the place. -/
  within : c.relation.Within fun k => k.place = here

/-- A step that succeeds on cursors that are matched leaves them matched. -/
theorem Matched.step {bound : List String} {s : Step} (hm : Matched here t t' c c')
    (hform : s.term.Formed here) (hfit : s.operator.Fits bound s.term)
    (h : s.run t c = (.ok (), d)) (h' : s.run t' c' = (.ok (), d')) :
    Matched here t t' d d' ∧ d.version = c.version ∧ d'.version = c'.version := by
  obtain ⟨hs, hrel, hi, hw⟩ := hm
  obtain ⟨change, hfound, happ, hsource, -, hversion, -⟩ := Step.run_ok h
  obtain ⟨change', hfound', happ', hsource', -, hversion', -⟩ := Step.run_ok h'
  have hconf := Operator.found_confined hform.toWithin hi hw hfit
  -- the operator cannot tell the sources apart, so it finds the same
  have hchange : change = change' := by
    have hread := hconf.same _ _ hs.closed hs.same
    rw [Reading.answer, hread] at hfound
    rw [← hrel, Reading.answer, hfound] at hfound'
    exact Except.ok.inj hfound'
  subst hchange
  obtain ⟨hproper, hgood⟩ := hconf.answer _ _ hs.closed hfound
  obtain ⟨hi', hw'⟩ := Relation.apply_within hi hw hproper hgood happ
  have hrel' : d.relation = d'.relation := by
    rw [← hrel, happ] at happ'
    exact (Prod.mk.inj happ').2
  exact ⟨⟨hsource ▸ hsource' ▸ hs, hrel', hi', hw'⟩, hversion, hversion'⟩

/-- Steps that succeed on cursors that are matched leave the same rows. -/
theorem Matched.runSteps {bound : List String} {steps : List Step} (hm : Matched here t t' c c')
    (hform : ∀ x ∈ steps, x.term.Formed here) (hfit : Fitted bound steps)
    (h : runSteps t c steps = (.ok (), d)) (h' : runSteps t' c' steps = (.ok (), d')) :
    d.relation = d'.relation ∧ d.version = c.version ∧ d'.version = c'.version := by
  induction steps generalizing c c' bound with
  | nil =>
    cases h
    cases h'
    exact ⟨hm.relation, rfl, rfl⟩
  | cons s steps ih =>
    rw [Cursor.runSteps] at h h'
    split at h
    · next u c₁ hstep =>
      split at h'
      · next u' c₁' hstep' =>
        obtain ⟨hm₁, hversion, hversion'⟩ :=
          hm.step (hform s List.mem_cons_self) hfit.1 hstep hstep'
        rw [← hm₁.relation] at h'
        split at h
        · next he =>
          rw [if_pos he] at h'
          cases h
          cases h'
          exact ⟨hm₁.relation, hversion, hversion'⟩
        · next he =>
          rw [if_neg he] at h'
          obtain ⟨hrel, hv, hv'⟩ :=
            ih hm₁ (fun x hx => hform x (List.mem_cons_of_mem _ hx)) hfit.2 h h'
          exact ⟨hrel, hv.trans hversion, hv'.trans hversion'⟩
      · cases h'
    · cases h

/-- Queries over sources that are alike leave the same rows, if names stand for the same keys. -/
theorem execute_alike
    (hs : Alike (Checksum.ofText c.graph, c.version) (c.source t) (c'.source t'))
    (hname : ∀ u k, c.keyOf t u = .ok k → k = c.nameOf u)
    (hname' : ∀ u k, c'.keyOf t' u = .ok k → k = c'.nameOf u)
    (hsame : ∀ p ∈ q.patterns, ∀ u ∈ p.terms, u.isVariable = false → c'.nameOf u = c.nameOf u)
    (h : c.execute t q = (.ok (), d)) (h' : c'.execute t' q = (.ok (), d')) :
    d.relation = d'.relation ∧ d.version = c.version ∧ d'.version = c'.version := by
  rw [execute] at h h'
  cases hp : c.plan t q with
  | error e =>
    rw [hp] at h
    cases h
  | ok p =>
    cases hp' : c'.plan t' q with
    | error e =>
      rw [hp'] at h'
      cases h'
    | ok p' =>
      rw [hp] at h
      rw [hp'] at h'
      have heq : p = p' := by
        refine Plan.ofQuery_unique (fun pat hpat u hu hv k k' hk hk' => ?_) hp hp'
        rw [hname u k hk, hname' u k' hk', hsame pat hpat u hu hv]
      subst heq
      obtain ⟨terms, hterms, horder, hfit⟩ := Plan.ofQuery_spec hp
      have hperm : (p.steps.map Step.term).Perm terms := horder ▸ Plan.order_terms_perm terms
      have hform : ∀ x ∈ p.steps, x.term.Formed (Checksum.ofText c.graph, c.version) := by
        intro x hx
        obtain ⟨pat, -, hu⟩ := (mem_of_mapM hterms).mp
          (hperm.subset (List.mem_map.mpr ⟨x, hx, rfl⟩))
        exact (Term.ofPattern_spec hname hu).formed _ fun _ => rfl
      have hstart : Matched (Checksum.ofText c.graph, c.version) t t' (c.withVariables p.vars)
          (c'.withVariables p.vars) :=
        ⟨hs, rfl, Relation.indexed_new p.vars, Relation.within_of_isEmpty rfl⟩
      exact hstart.runSteps hform hfit h h'

end Cursor

end TripleStore
