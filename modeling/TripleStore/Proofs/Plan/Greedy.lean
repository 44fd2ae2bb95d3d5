import Mathlib.Data.List.Induction
import Mathlib.Logic.Relation
import TripleStore.Proofs.Plan.Order

/-!
# A greedy order

After the first term, each place goes to the best one of the terms that are left: the
one that shares most with a single term placed before it, and of several the earliest.
Nothing else is said by the algorithm, and it settles the order.

What follows is about all places at once.  A term that shares no variable with those
before it comes only when none that is left does.  So the terms before it and the others
have nothing to do with each other, not even by way of further terms.  Seen from any
place, the terms after it that have to do with one before it have to do with the last one
before it.  So terms that hang together come one after the other, without any that does
not belong to them.
-/

open Relation

namespace TripleStore

/-- Terms share a variable. -/
def Term.Shares (t u : Term) : Prop := ∃ v ∈ t.vars, v ∈ u.vars

namespace Term

variable {t u : Term}

theorem Shares.symm (h : t.Shares u) : u.Shares t := by
  obtain ⟨v, ht, hu⟩ := h
  exact ⟨v, hu, ht⟩

theorem overlap_pos : 0 < t.overlap u ↔ t.Shares u := by
  simp only [overlap, Shares, List.length_pos_iff_exists_mem, List.mem_filter,
    List.contains_iff_mem]

end Term

namespace Plan

variable {terms : List Term} {placed before after rest ts : List Indexed}
  {best p q r : Indexed} {measure : Indexed → Nat} {n : Nat}

/-! ## The best of some terms -/

theorem nearness_append :
    nearness (placed ++ [r]) p = max (nearness placed p) (p.2.overlap r.2) := by
  simp [nearness]

/-- No term that is placed shares more than the nearest. -/
theorem overlap_le_nearness (hr : r ∈ placed) : p.2.overlap r.2 ≤ nearness placed p := by
  induction placed using List.reverseRecOn with
  | nil => cases hr
  | append_singleton placed s ih =>
    rw [nearness_append]
    rcases List.mem_append.mp hr with hr | hr
    · exact Nat.le_trans (ih hr) (Nat.le_max_left _ _)
    · rw [List.mem_singleton.mp hr]
      exact Nat.le_max_right _ _

/-- A term that is placed shares as much as the nearest. -/
theorem exists_overlap_eq_nearness (hplaced : placed ≠ []) :
    ∃ r ∈ placed, p.2.overlap r.2 = nearness placed p := by
  induction placed using List.reverseRecOn with
  | nil => exact absurd rfl hplaced
  | append_singleton placed s ih =>
    rw [nearness_append]
    by_cases hnone : placed = []
    · refine ⟨s, List.mem_append_right _ List.mem_cons_self, ?_⟩
      simp [hnone, nearness]
    · obtain ⟨r, hr, heq⟩ := ih hnone
      rcases Nat.le_total (p.2.overlap s.2) (nearness placed p) with hle | hle
      · exact ⟨r, List.mem_append_left _ hr, heq.trans (Nat.max_eq_left hle).symm⟩
      · exact ⟨s, List.mem_append_right _ List.mem_cons_self, (Nat.max_eq_right hle).symm⟩

/-- A term is before another one by a measure: it has more of it, or as much and is earlier. -/
def Beats (measure : Indexed → Nat) (p q : Indexed) : Prop :=
  measure q < measure p ∨ measure q = measure p ∧ p.1 < q.1

theorem Beats.trans (h : Beats measure p q) (h' : Beats measure q r) : Beats measure p r := by
  unfold Beats at *
  omega

/-- The best of some terms beats all others. -/
theorem earliestBest_beats (measure : Indexed → Nat)
    (hsorted : (best :: ts).Pairwise fun p q => p.1 < q.1) :
    ∀ q ∈ best :: ts, q = earliestBest measure best ts ∨
      Beats measure (earliestBest measure best ts) q := by
  induction ts generalizing best with
  | nil =>
    intro q hq
    exact .inl (List.mem_singleton.mp hq)
  | cons t ts ih =>
    obtain ⟨hfirst, hrest⟩ := List.pairwise_cons.mp hsorted
    obtain ⟨hlt, hfirst⟩ := List.forall_mem_cons.mp hfirst
    rw [earliestBest]
    split
    · next hmore =>
      -- the new term is better than the best so far, and what is left beats neither
      refine List.forall_mem_cons.mpr ⟨.inr ?_, ih hrest⟩
      have hbeats : Beats measure t best := .inl hmore
      rcases ih hrest t List.mem_cons_self with heq | ht
      · exact heq ▸ hbeats
      · exact ht.trans hbeats
    · next hmore =>
      have hall := ih (List.pairwise_cons.mpr ⟨hfirst, (List.pairwise_cons.mp hrest).2⟩)
      obtain ⟨hbest, hall⟩ := List.forall_mem_cons.mp hall
      have hbeats : Beats measure best t := by
        unfold Beats
        omega
      refine List.forall_mem_cons.mpr ⟨hbest, List.forall_mem_cons.mpr ⟨.inr ?_, hall⟩⟩
      rcases hbest with heq | hbest
      · exact heq ▸ hbeats
      · exact hbest.trans hbeats

/-! ## One place after the other -/

/-- Each term of a list is the best of those from it on, when those before it are placed. -/
def Follows : List Indexed → List Indexed → Prop
  | _, [] => True
  | placed, p :: rest => (∀ q ∈ rest, Beats (nearness placed) p q) ∧ Follows (placed ++ [p]) rest

theorem Follows.beats (h : Follows placed (before ++ p :: after)) :
    ∀ q ∈ after, Beats (nearness (placed ++ before)) p q := by
  induction before generalizing placed with
  | nil =>
    rw [List.append_nil]
    exact h.1
  | cons r before ih =>
    rw [List.append_cons]
    exact ih h.2

/-- Terms in the order of the query are told apart by where they stand. -/
theorem nodup_of_sorted (hsorted : ts.Pairwise fun p q => p.1 < q.1) : (ts.map Prod.fst).Nodup :=
  List.pairwise_map.mpr (hsorted.imp Nat.ne_of_lt)

/-- The terms that are left are placed one after the other. -/
theorem placeAll_follows (placed : List Indexed) (hlen : ts.length ≤ n)
    (hsorted : ts.Pairwise fun p q => p.1 < q.1) :
    ∃ rest, placeAll n placed ts = placed ++ rest ∧ rest.Perm ts ∧ Follows placed rest := by
  induction n generalizing placed ts with
  | zero =>
    obtain rfl := List.eq_nil_of_length_eq_zero (Nat.le_zero.mp hlen)
    exact ⟨[], (List.append_nil placed).symm, .nil, trivial⟩
  | succ n ih =>
    cases ts with
    | nil => exact ⟨[], (List.append_nil placed).symm, .nil, trivial⟩
    | cons t ts =>
      rw [placeAll]
      have hbeats := earliestBest_beats (nearness placed) hsorted
      have hmem := earliestBest_mem (nearness placed) t ts
      generalize earliestBest (nearness placed) t ts = next at hbeats hmem
      have hperm := perm_without hmem (nodup_of_sorted hsorted)
      have hlen' : (without next.1 (t :: ts)).length ≤ n := by
        have hl := hperm.length_eq
        simp only [List.length_cons] at hl hlen
        omega
      obtain ⟨rest, hrest, hleft, hfollows⟩ :=
        ih (placed ++ [next]) hlen' (hsorted.sublist List.eraseP_sublist)
      have hall : (next :: rest).Perm (t :: ts) := (hleft.cons next).trans hperm.symm
      refine ⟨next :: rest, ?_, hall, fun q hq => ?_, hfollows⟩
      · rw [hrest, List.append_assoc, List.singleton_append]
      · refine (hbeats q (hall.mem_iff.mp (List.mem_cons_of_mem _ hq))).resolve_left ?_
        rintro rfl
        have hnd := (hall.map Prod.fst).nodup_iff.mpr (nodup_of_sorted hsorted)
        exact (List.nodup_cons.mp hnd).1 (List.mem_map_of_mem hq)

/-! ## The whole order -/

/-- The terms of a query with where they stand. -/
def indexed (terms : List Term) : List Indexed := terms.mapIdx fun i t => (i, t)

theorem mem_indexed : p ∈ indexed terms ↔ terms[p.1]? = some p.2 := by
  simp only [indexed, List.mem_mapIdx, List.getElem?_eq_some_iff]
  constructor
  · rintro ⟨i, hi, rfl⟩
    exact ⟨hi, rfl⟩
  · rintro ⟨hi, heq⟩
    exact ⟨p.1, hi, Prod.ext rfl heq⟩

theorem map_fst_indexed : (indexed terms).map Prod.fst = List.range terms.length := by
  apply List.ext_getElem
  · simp [indexed]
  · simp [indexed]

theorem sorted_indexed (terms : List Term) : (indexed terms).Pairwise fun p q => p.1 < q.1 := by
  rw [← List.pairwise_map, map_fst_indexed]
  exact List.pairwise_lt_range

/-- The first of some terms to be run: the first with one variable, or else with two, or else with
three, or else the first of all. -/
def opening (ts : List Indexed) : Option Indexed :=
  ((ts.find? fun t => t.2.vars.length = 1).or
    ((ts.find? fun t => t.2.vars.length = 2).or
      (ts.find? fun t => t.2.vars.length = 3))).or ts.head?

/-- The order begins with the opening term, and the others follow. -/
theorem order_follows (terms : List Term) :
    order terms = [] ∧ indexed terms = [] ∨
      ∃ first rest, order terms = first :: rest ∧ opening (indexed terms) = some first ∧
        Follows [first] rest := by
  have hsorted := sorted_indexed terms
  rw [order, ← indexed]
  generalize indexed terms = all at hsorted
  cases all with
  | nil => exact .inl ⟨rfl, rfl⟩
  | cons t ts =>
    have hperm := perm_without (seed_mem t ts) (nodup_of_sorted hsorted)
    have hlen : (without (seed t ts).1 (t :: ts)).length ≤ ts.length := by
      have hl := hperm.length_eq
      simp only [List.length_cons] at hl
      omega
    obtain ⟨rest, hrest, -, hfollows⟩ := placeAll_follows [seed t ts] hlen
      (hsorted.sublist List.eraseP_sublist)
    refine .inr ⟨seed t ts, rest, hrest, ?_, hfollows⟩
    rw [opening, List.head?_cons, Option.or_some]
    rfl

/-- An order of the terms of a query in which each place goes to the best one that is left. -/
structure Greedy (terms : List Term) (ps : List Indexed) : Prop where
  /-- Each term has one place. -/
  perm : ps.Perm (indexed terms)
  /-- The opening term comes first. -/
  head : ps.head? = opening (indexed terms)
  /-- Of those left, each later term shares most with a single one before it, and is the earliest
  of several. -/
  best : ∀ before p after, ps = before ++ p :: after → before ≠ [] →
    ∃ r ∈ before, (∀ s ∈ before, p.2.overlap s.2 ≤ p.2.overlap r.2) ∧
      ∀ q ∈ after, ∀ s ∈ before, q.2.overlap s.2 < p.2.overlap r.2 ∨
        q.2.overlap s.2 = p.2.overlap r.2 ∧ p.1 < q.1

theorem greedy_order (terms : List Term) : Greedy terms (order terms) where
  perm := order_perm terms
  head := by
    rcases order_follows terms with ⟨horder, hnone⟩ | ⟨first, rest, horder, hopening, -⟩
    · rw [horder, hnone]
      rfl
    · rw [horder, hopening]
      rfl
  best before p after hsplit hne := by
    rcases order_follows terms with ⟨horder, -⟩ | ⟨first, rest, horder, -, hfollows⟩
    · simp [horder] at hsplit
    · cases before with
      | nil => exact absurd rfl hne
      | cons first' before =>
        rw [horder, List.cons_append] at hsplit
        obtain ⟨rfl, rfl⟩ := List.cons.inj hsplit
        have hbeats := hfollows.beats
        rw [List.singleton_append] at hbeats
        obtain ⟨r, hr, hnear⟩ := exists_overlap_eq_nearness (p := p) hne
        refine ⟨r, hr, fun s hs => hnear ▸ overlap_le_nearness hs, fun q hq s hs => ?_⟩
        have hle : q.2.overlap s.2 ≤ nearness (first :: before) q := overlap_le_nearness hs
        rcases hbeats q hq with hless | ⟨hsame, hearlier⟩
        · omega
        · omega

/-- Orders that begin alike go on alike. -/
theorem Greedy.eq_of_append {rest' : List Indexed} (h : Greedy terms (before ++ rest))
    (h' : Greedy terms (before ++ rest')) : rest = rest' := by
  have hperm : rest.Perm rest' :=
    (List.perm_append_left_iff before).mp (h.perm.trans h'.perm.symm)
  induction rest generalizing before rest' with
  | nil => exact (List.nil_perm.mp hperm).symm
  | cons p after ih =>
    cases rest' with
    | nil => exact absurd (List.perm_nil.mp hperm) (List.cons_ne_nil p after)
    | cons q after' =>
      obtain rfl : p = q := by
        by_cases hnone : before = []
        · have hhead := h.head.trans h'.head.symm
          simpa [hnone] using hhead
        · by_contra hne
          have hq : q ∈ after :=
            (List.mem_cons.mp (hperm.mem_iff.mpr List.mem_cons_self)).resolve_left (Ne.symm hne)
          have hp : p ∈ after' :=
            (List.mem_cons.mp (hperm.mem_iff.mp List.mem_cons_self)).resolve_left hne
          -- each of the two would have to beat the other
          obtain ⟨r, hr, -, hbest⟩ := h.best before p after rfl hnone
          obtain ⟨r', hr', -, hbest'⟩ := h'.best before q after' rfl hnone
          have hpq := hbest q hq r' hr'
          have hqp := hbest' p hp r hr
          omega
      rw [List.append_cons] at h h'
      exact congrArg (List.cons p) (ih h h' hperm.cons_inv)

/-- There is one greedy order. -/
theorem Greedy.unique {ps qs : List Indexed} (h : Greedy terms ps) (h' : Greedy terms qs) :
    ps = qs := by
  rw [← List.nil_append ps] at h
  rw [← List.nil_append qs] at h'
  exact h.eq_of_append h'

/-! ## Terms that hang together -/

/-- Terms hang together if shared variables lead from one to the other, by way of terms of the
query. -/
def Linked (terms : List Term) : Indexed → Indexed → Prop :=
  ReflTransGen fun p q => p ∈ indexed terms ∧ q ∈ indexed terms ∧ p.2.Shares q.2

theorem Linked.symm (h : Linked terms p q) : Linked terms q p := by
  induction h with
  | refl => exact .refl
  | tail _ hstep ih =>
    obtain ⟨hp, hq, hshares⟩ := hstep
    exact .head ⟨hq, hp, hshares.symm⟩ ih

namespace Greedy

variable {ps : List Indexed}

theorem mem (h : Greedy terms ps) (hsplit : ps = before ++ p :: after) :
    q ∈ indexed terms ↔ q ∈ before ∨ q = p ∨ q ∈ after := by
  rw [← h.perm.mem_iff, hsplit, List.mem_append, List.mem_cons]

/-- If a term shares nothing with those before it, those after it do not either. -/
theorem apart (h : Greedy terms ps) (hsplit : ps = before ++ p :: after)
    (hp : ∀ r ∈ before, ¬ p.2.Shares r.2) : ∀ q ∈ after, ∀ r ∈ before, ¬ q.2.Shares r.2 := by
  intro q hq r hr hshares
  obtain ⟨s, hs, -, hbest⟩ := h.best before p after hsplit (List.ne_nil_of_mem hr)
  have hnone : ¬ 0 < p.2.overlap s.2 := fun hpos => hp s hs (Term.overlap_pos.mp hpos)
  have hpos : 0 < q.2.overlap r.2 := Term.overlap_pos.mpr hshares
  have hbeats := hbest q hq r hr
  omega

/-- Nor do they hang together with them. -/
theorem mem_before_of_linked (h : Greedy terms ps) (hsplit : ps = before ++ p :: after)
    (hp : ∀ r ∈ before, ¬ p.2.Shares r.2) (hq : q ∈ before) (hlinked : Linked terms q r) :
    r ∈ before := by
  induction hlinked with
  | refl => exact hq
  | tail _ hstep ih =>
    obtain ⟨-, hmem, hshares⟩ := hstep
    rcases (h.mem hsplit).mp hmem with hmem | rfl | hmem
    · exact hmem
    · exact absurd hshares.symm (hp _ ih)
    · exact absurd hshares.symm (h.apart hsplit hp _ hmem _ ih)

/-- A term between two that hang together hangs together with them. -/
theorem linked_of_between (h : Greedy terms ps) (hsplit : ps = before ++ p :: after)
    (hq : q ∈ before) (hr : r ∈ after) (hlinked : Linked terms q r) : Linked terms q p := by
  induction before using List.reverseRecOn generalizing p q r after with
  | nil => cases hq
  | append_singleton before last ih =>
    -- what is linked to a later term is linked to the last one before it
    have hlast : ∀ s ∈ before ++ [last], ∀ t ∈ p :: after, Linked terms s t →
        Linked terms s last := by
      intro s hs t ht hst
      rcases List.mem_append.mp hs with hs | hs
      · exact ih (by rw [hsplit, List.append_assoc, List.singleton_append]) hs ht hst
      · rw [List.mem_singleton.mp hs]
        exact .refl
    have hqlast : Linked terms q last := hlast q hq r (List.mem_cons_of_mem _ hr) hlinked
    by_cases hshares : ∃ s ∈ before ++ [last], p.2.Shares s.2
    · obtain ⟨s, hs, hshares⟩ := hshares
      have hstep : Linked terms s p :=
        .single ⟨(h.mem hsplit).mpr (.inl hs), (h.mem hsplit).mpr (.inr (.inl rfl)), hshares.symm⟩
      have hslast : Linked terms s last := hlast s hs p List.mem_cons_self hstep
      exact hqlast.trans (hslast.symm.trans hstep)
    · have hnone : ∀ s ∈ before ++ [last], ¬ p.2.Shares s.2 :=
        fun s hs hps => hshares ⟨s, hs, hps⟩
      have hbefore : r ∈ before ++ [last] := h.mem_before_of_linked hsplit hnone hq hlinked
      have hnd : ((before ++ [last]) ++ p :: after).Nodup := by
        rw [← hsplit, h.perm.nodup_iff]
        exact (nodup_of_sorted (sorted_indexed terms)).of_map
      exact absurd (List.mem_cons_of_mem _ hr) ((List.nodup_append'.mp hnd).2.2 hbefore)

end Greedy

/-- The order is the greedy one.  So a term that shares nothing with those before it comes only
when no term that is left does, and terms that hang together come one after the other. -/
theorem order_greedy (terms : List Term) :
    ((order terms).map Prod.fst).Perm (List.range terms.length) ∧
      (∀ p ∈ order terms, terms[p.1]? = some p.2) ∧
      (∀ ps, Greedy terms ps ↔ ps = order terms) ∧
      ∀ before p after, order terms = before ++ p :: after →
        ((∀ r ∈ before, ¬ p.2.Shares r.2) → ∀ q ∈ after, ∀ r ∈ before, ¬ q.2.Shares r.2) ∧
        ∀ q ∈ before, ∀ r ∈ after, Linked terms q r → Linked terms q p := by
  have h := greedy_order terms
  refine ⟨map_fst_indexed ▸ h.perm.map Prod.fst, fun p hp => ?_,
    fun ps => ⟨fun hps => hps.unique h, ?_⟩, fun before p after hsplit => ⟨?_, ?_⟩⟩
  · exact mem_indexed.mp (h.perm.mem_iff.mp hp)
  · rintro rfl
    exact h
  · exact h.apart hsplit
  · intro q hq r hr
    exact h.linked_of_between hsplit hq hr

end Plan

end TripleStore
