import Mathlib.Data.List.Nodup
import TripleStore.Plan.Order

/-!
# Terms in order

The order of terms is an order of all of them: no term is lost and none is run
twice.  Each step takes a term out of those that remain, and a term is known by
where it stands in the query.

Only the variables of the terms settle the order.  Terms that are replaced by
others with the same variables are run in the same order.
-/

namespace TripleStore

namespace Plan

/-! ## One term taken out -/

theorem earliestBest_mem (measure : Indexed → Nat) (best : Indexed) (ts : List Indexed) :
    earliestBest measure best ts ∈ best :: ts := by
  induction ts generalizing best with
  | nil => exact List.mem_cons_self
  | cons t ts ih =>
    have hmem := ih (if measure best < measure t then t else best)
    rw [earliestBest]
    rcases List.mem_cons.mp hmem with heq | hmem
    · rw [heq]
      split
      · exact List.mem_cons_of_mem _ List.mem_cons_self
      · exact List.mem_cons_self
    · exact List.mem_cons_of_mem _ (List.mem_cons_of_mem _ hmem)

theorem seed_mem (first : Indexed) (rest : List Indexed) : seed first rest ∈ first :: rest := by
  have hfind : ∀ (p : Indexed → Bool) (t : Indexed), (first :: rest).find? p = some t →
      t ∈ first :: rest := fun p t h => List.mem_of_find?_eq_some h
  rw [seed]
  simp only
  cases h₁ : (first :: rest).find? fun t => decide (t.2.vars.length = 1) with
  | some t => exact hfind _ t h₁
  | none =>
    cases h₂ : (first :: rest).find? fun t => decide (t.2.vars.length = 2) with
    | some t => exact hfind _ t h₂
    | none =>
      cases h₃ : (first :: rest).find? fun t => decide (t.2.vars.length = 3) with
      | some t => exact hfind _ t h₃
      | none => exact List.mem_cons_self

/-- Taking a term out leaves the others. -/
theorem perm_without {ts : List Indexed} {t : Indexed} (h : t ∈ ts)
    (hnd : (ts.map Prod.fst).Nodup) : ts.Perm (t :: without t.1 ts) := by
  obtain ⟨u, before, after, -, hu, hsplit, hrest⟩ :=
    List.exists_of_eraseP (p := fun u => decide (u.1 = t.1)) h (by simp)
  have hu : u.1 = t.1 := of_decide_eq_true hu
  obtain rfl : u = t := by
    refine List.inj_on_of_nodup_map hnd ?_ h hu
    rw [hsplit]
    exact List.mem_append_right _ List.mem_cons_self
  rw [without, hrest]
  conv_lhs => rw [hsplit]
  exact List.perm_middle

/-! ## All terms -/

theorem placeAll_perm {n : Nat} {placed ts : List Indexed} (hlen : ts.length ≤ n)
    (hnd : (ts.map Prod.fst).Nodup) : (placeAll n placed ts).Perm (placed ++ ts) := by
  induction n generalizing placed ts with
  | zero =>
    obtain rfl := List.eq_nil_of_length_eq_zero (Nat.le_zero.mp hlen)
    simp [placeAll]
  | succ n ih =>
    cases ts with
    | nil => simp [placeAll]
    | cons t ts =>
      have hperm := perm_without (earliestBest_mem (nearness placed) t ts) hnd
      rw [placeAll]
      refine (ih ?_ ?_).trans ?_
      · have hl := hperm.length_eq
        simp only [List.length_cons] at hl hlen
        omega
      · have hnd' := (hperm.map Prod.fst).nodup_iff.mp hnd
        exact (List.nodup_cons.mp hnd').2
      · rw [List.append_assoc]
        exact hperm.symm.append_left placed

/-- The order of terms is an order of all of them. -/
theorem order_perm (terms : List Term) :
    (order terms).Perm (terms.mapIdx fun i t => (i, t)) := by
  have hnd : ((terms.mapIdx fun i t => (i, t)).map Prod.fst).Nodup := by
    have hfst : (terms.mapIdx fun i t => (i, t)).map Prod.fst = List.range terms.length := by
      apply List.ext_getElem
      · simp
      · simp
    rw [hfst]
    exact List.nodup_range
  rw [order]
  generalize (terms.mapIdx fun i t => (i, t)) = ts at hnd
  cases ts with
  | nil => exact .nil
  | cons t ts =>
    have hperm := perm_without (seed_mem t ts) hnd
    refine (placeAll_perm ?_ ?_).trans hperm.symm
    · have hl := hperm.length_eq
      simp only [List.length_cons] at hl
      omega
    · have hnd' := (hperm.map Prod.fst).nodup_iff.mp hnd
      exact (List.nodup_cons.mp hnd').2

theorem order_terms_perm (terms : List Term) : ((order terms).map Prod.snd).Perm terms := by
  have hsnd : (terms.mapIdx fun i t => (i, t)).map Prod.snd = terms := by
    apply List.ext_getElem
    · simp
    · simp
  have hperm := (order_perm terms).map Prod.snd
  rwa [hsnd] at hperm

/-! ## Other terms with the same variables -/

section

variable {g : Term → Term}

theorem nearness_map (hg : ∀ t, (g t).vars = t.vars) (placed : List Indexed) (t : Indexed) :
    nearness (placed.map (Prod.map id g)) (Prod.map id g t) = nearness placed t := by
  simp only [nearness, List.foldl_map, Prod.map_snd, Term.overlap, hg]

theorem earliestBest_map {measure measure' : Indexed → Nat}
    (h : ∀ t, measure' (Prod.map id g t) = measure t) (best : Indexed) (ts : List Indexed) :
    earliestBest measure' (Prod.map id g best) (ts.map (Prod.map id g)) =
      Prod.map id g (earliestBest measure best ts) := by
  induction ts generalizing best with
  | nil => rfl
  | cons t ts ih =>
    rw [List.map_cons, earliestBest, earliestBest, h, h, ← ih]
    split
    · rfl
    · rfl

theorem seed_map (hg : ∀ t, (g t).vars = t.vars) (first : Indexed) (rest : List Indexed) :
    seed (Prod.map id g first) (rest.map (Prod.map id g)) = Prod.map id g (seed first rest) := by
  have hfind : ∀ n, (((first :: rest).map (Prod.map id g)).find? fun t => t.2.vars.length = n) =
      ((first :: rest).find? fun t => t.2.vars.length = n).map (Prod.map id g) := by
    intro n
    rw [List.find?_map]
    simp only [Function.comp_def, Prod.map_snd, hg]
  simp only [seed]
  rw [← List.map_cons, hfind, hfind, hfind, ← Option.map_or, ← Option.map_or, Option.getD_map]

theorem without_map (i : Nat) (ts : List Indexed) :
    without i (ts.map (Prod.map id g)) = (without i ts).map (Prod.map id g) := by
  rw [without, List.eraseP_map]
  rfl

theorem placeAll_map (hg : ∀ t, (g t).vars = t.vars) (n : Nat) (placed ts : List Indexed) :
    placeAll n (placed.map (Prod.map id g)) (ts.map (Prod.map id g)) =
      (placeAll n placed ts).map (Prod.map id g) := by
  induction n generalizing placed ts with
  | zero => rfl
  | succ n ih =>
    cases ts with
    | nil => rfl
    | cons t ts =>
      have hnext := earliestBest_map (nearness_map hg placed) t ts
      rw [List.map_cons, placeAll, placeAll]
      simp only [hnext]
      rw [← ih, List.map_append, ← List.map_cons, without_map]
      rfl

/-- Terms with the same variables are run in the same order. -/
theorem order_map (hg : ∀ t, (g t).vars = t.vars) (terms : List Term) :
    order (terms.map g) = (order terms).map (Prod.map id g) := by
  have hidx : (terms.map g).mapIdx (fun i t => (i, t)) =
      (terms.mapIdx fun i t => (i, t)).map (Prod.map id g) := by
    apply List.ext_getElem
    · simp
    · simp
  rw [order, order, hidx]
  cases terms.mapIdx fun i t => (i, t) with
  | nil => rfl
  | cons t ts =>
    simp only [List.map_cons, seed_map hg, List.length_map]
    rw [← placeAll_map hg, ← without_map]
    rfl

end

end Plan

end TripleStore
