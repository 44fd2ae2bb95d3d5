import Mathlib.Data.List.Nodup
import Mathlib.Order.Bounds.Basic
import TripleStore.Inference.Queue

/-!
# Closures of statements

The closure of statements is the least set that holds them and to which their
rules add nothing.  As a list it begins with the statements, each once and in the
order of first occurrence, and no statement is in it twice.

The loop with one queue and the rounds find the same in the same order, since
nothing that comes to wait in the queue is looked at before all that waited
already.  What the closure holds is then read off the loop.  A consequence of a
statement that waits or was found is seen or found itself when the queue is empty,
and nothing else is ever found.
-/

namespace TripleStore

/-! ## Consequences -/

namespace InverseRule

variable {rules : List InverseRule} {r : InverseRule} {ts : List Triple} {t u : Triple}

theorem mem_foldl_addRule {added : List InverseRule} :
    r ∈ added.foldl addRule rules ↔ r ∈ rules ∨ r ∈ added := by
  induction added generalizing rules with
  | nil => simp
  | cons a added ih =>
    have ha : r ∈ addRule rules a ↔ r ∈ rules ∨ r = a := by
      rw [addRule]
      split
      · next hmem => exact ⟨.inl, fun h => h.elim id fun heq => heq ▸ hmem⟩
      · simp
    rw [List.foldl_cons, ih, ha, List.mem_cons, or_assoc]

/-- Rules are the statements that declare them. -/
theorem mem_ofTriples :
    r ∈ ofTriples ts ↔ Triple.mk r.predicate Uri.owlInverseOf r.inverse ∈ ts := by
  simp only [ofTriples, mem_foldl_addRule, List.not_mem_nil, false_or, List.mem_map,
    List.mem_filter, decide_eq_true_eq]
  constructor
  · rintro ⟨⟨s, -, o⟩, ⟨hmem, rfl⟩, rfl⟩
    exact hmem
  · intro hmem
    exact ⟨_, ⟨hmem, rfl⟩, rfl⟩

/-- A rule turns a statement of its one side around into one of its other side. -/
theorem mem_consequences : u ∈ consequences rules t ↔
    ∃ r ∈ rules, (t.predicate = r.predicate ∧ u = ⟨t.object, r.inverse, t.subject⟩) ∨
      (t.predicate = r.inverse ∧ u = ⟨t.object, r.predicate, t.subject⟩) := by
  simp only [consequences, List.mem_filterMap]
  refine exists_congr fun r => and_congr_right fun _ => ?_
  rw [infer?]
  split
  · next hp =>
    rw [Option.some_inj, eq_comm]
    constructor
    · exact fun h => .inl ⟨hp, h⟩
    · rintro (⟨-, h⟩ | ⟨hi, h⟩)
      · exact h
      · -- the predicate is on both sides of the rule
        rwa [← hi, hp]
  · next hp =>
    split
    · next hi =>
      rw [Option.some_inj, eq_comm]
      exact ⟨fun h => .inr ⟨hi, h⟩, fun h => (h.resolve_left fun h => hp h.1).2⟩
    · next hi => simp [hp, hi]

end InverseRule

namespace Inference

open InverseRule

variable {rules : List InverseRule} {queue ts : List Triple} {seen : Triples} {t u : Triple}

/-! ## Fresh statements of several lists -/

theorem fresh_append (seen : Triples) (ts us : List Triple) :
    fresh seen (ts ++ us) =
      ((fresh seen ts).1 ++ (fresh (fresh seen ts).2 us).1, (fresh (fresh seen ts).2 us).2) := by
  fun_induction fresh seen ts with
  | case1 => rfl
  | case2 seen u ts hu ih => rw [List.cons_append, fresh, if_pos hu, ih]
  | case3 seen u ts hu news seen' hnews ih =>
    rw [hnews] at ih
    rw [List.cons_append, fresh, if_neg hu, ih]
    rfl

/-- What is fresh in a list comes in the order of first occurrence. -/
theorem fresh_eq_eraseDups (seen : Triples) (ts : List Triple) :
    (fresh seen ts).1 = (ts.filter fun t => t ∉ seen).eraseDups := by
  fun_induction fresh seen ts with
  | case1 => rfl
  | case2 seen u ts hu ih => rw [List.filter_cons_of_neg (by simpa using hu), ih]
  | case3 seen u ts hu news seen' hnews ih =>
    rw [hnews] at ih
    have hrest : (ts.filter fun t => t ∉ seen.insert u) =
        ts.filter fun t => (!t == u) && decide (t ∉ seen) := by
      refine List.filter_congr fun t _ => ?_
      rw [Bool.eq_iff_iff, decide_eq_true_eq, Std.ExtTreeSet.mem_insert,
        Std.LawfulEqOrd.compare_eq_iff_eq, not_or, Bool.and_eq_true, decide_eq_true_eq,
        Bool.not_eq_true', beq_eq_false_iff_ne]
      exact and_congr_left fun _ => ne_comm
    show u :: news = _
    rw [List.filter_cons_of_pos (by simpa using hu), List.eraseDups_cons, List.filter_filter,
      ← hrest, ← ih]

theorem fresh_empty (ts : List Triple) : (fresh ∅ ts).1 = ts.eraseDups := by
  rw [fresh_eq_eraseDups, List.filter_eq_self.mpr (by simp)]

/-! ## The queue and the rounds -/

/-- What is found in a round was outstanding. -/
theorem mem_outstanding_of_fresh {found : List Triple}
    (h : u ∈ (fresh seen (found.flatMap (consequences rules))).1) :
    u ∈ outstanding rules found seen := by
  obtain ⟨hmem, hnew⟩ := mem_fresh.mp h
  obtain ⟨t, ht, hcons⟩ := List.mem_flatMap.mp hmem
  have hself : u ∈ candidates rules [u] := mem_candidates.mpr (.inl List.mem_cons_self)
  exact mem_outstanding.mpr ⟨mem_candidates_of_consequences
    (fun s hs => ⟨t, ht, List.mem_singleton.mp hs ▸ hcons⟩) hself, hnew⟩

/-- What waits in front is looked at first, and what it leads to waits behind the rest. -/
theorem drain_append (found queue : List Triple) (seen : Triples) :
    drain rules (found ++ queue) seen =
      (fresh seen (found.flatMap (consequences rules))).1 ++
        drain rules (queue ++ (fresh seen (found.flatMap (consequences rules))).1)
          (fresh seen (found.flatMap (consequences rules))).2 := by
  induction found generalizing queue seen with
  | nil => simp [fresh]
  | cons t found ih =>
    rw [List.cons_append, drain, List.append_assoc, ih, List.flatMap_cons, fresh_append]
    simp only [turn, List.append_assoc]

/-- The queue works in rounds too: all that waits leads to some statements, which are looked at
next. -/
theorem drain_eq_round (found : List Triple) (seen : Triples) :
    drain rules found seen = (fresh seen (found.flatMap (consequences rules))).1 ++
      drain rules (fresh seen (found.flatMap (consequences rules))).1
        (fresh seen (found.flatMap (consequences rules))).2 := by
  simpa using drain_append found [] seen

/-- Rounds that are enough for all that is outstanding find what the queue finds. -/
theorem saturate_eq_drain {rounds : Nat} {found : List Triple}
    (h : (outstanding rules found seen).length ≤ rounds) :
    saturate rules rounds found seen = drain rules found seen := by
  induction rounds generalizing found seen with
  | zero =>
    have hnone : (fresh seen (found.flatMap (consequences rules))).1 = [] := by
      refine List.eq_nil_iff_forall_not_mem.mpr fun u hu => ?_
      have hpos := List.length_pos_of_mem (mem_outstanding_of_fresh hu)
      omega
    rw [drain_eq_round, hnone, drain]
    rfl
  | succ rounds ih =>
    rw [saturate, drain_eq_round]
    by_cases hnone : (fresh seen (found.flatMap (consequences rules))).1 = []
    · simp [hnone, drain]
    · obtain ⟨u, hu⟩ := List.exists_mem_of_ne_nil _ hnone
      have hqueue : ∀ v ∈ candidates rules (fresh seen (found.flatMap (consequences rules))).1,
          v ∈ candidates rules found := fun v hv =>
        mem_candidates_of_consequences (fun s hs => List.mem_flatMap.mp (mem_fresh.mp hs).1) hv
      have hless := length_outstanding_lt hqueue (fun v hv => mem_fresh_seen.mpr (.inl hv))
        (mem_outstanding_of_fresh hu) (mem_fresh_seen.mpr (.inr (mem_fresh.mp hu).1))
      simp only [List.isEmpty_iff, hnone, if_false]
      rw [ih (by omega)]

/-- The rounds and the queue compute the same closure. -/
theorem closeQueue_eq_close (ts : List Triple) : closeQueue ts = close ts := by
  have hgiven : ∀ t ∈ (fresh ∅ ts).1, t ∈ ts := fun t ht => (mem_fresh.mp ht).1
  have hout : (outstanding (ofTriples ts) (fresh ∅ ts).1 (fresh ∅ ts).2).length ≤
      maxRounds (ofTriples ts) ts := by
    rw [← length_candidates]
    refine (nodup_fresh _ _).length_le_of_subset fun u hu => ?_
    have hcand := (mem_outstanding.mp hu).1
    rw [mem_candidates] at hcand ⊢
    exact hcand.imp (hgiven u) fun ⟨t, ht, hrest⟩ => ⟨t, hgiven t ht, hrest⟩
  show _ ++ drain _ _ _ = _ ++ saturate _ _ _ _
  rw [saturate_eq_drain hout]

/-! ## What the queue finds -/

/-- Nothing is found twice, and nothing that was seen. -/
theorem nodup_drain (rules : List InverseRule) (queue : List Triple) (seen : Triples) :
    (drain rules queue seen).Nodup ∧ ∀ u ∈ drain rules queue seen, u ∉ seen := by
  fun_induction drain rules queue seen with
  | case1 => exact ⟨List.nodup_nil, fun u hu => nomatch hu⟩
  | case2 t queue seen found ih =>
    obtain ⟨hnd, hnew⟩ := ih
    refine ⟨List.nodup_append'.mpr ⟨nodup_fresh _ _, hnd, fun u hu hu' => ?_⟩, fun u hu => ?_⟩
    · exact hnew u hu' (mem_fresh_seen.mpr (.inr (mem_fresh.mp hu).1))
    · rcases List.mem_append.mp hu with hu | hu
      · exact (mem_fresh.mp hu).2
      · exact fun hold => hnew u hu (mem_fresh_seen.mpr (.inl hold))

/-- What is found is in every set to which the rules add nothing. -/
theorem drain_subset {S : Set Triple} (hS : ∀ t ∈ S, ∀ u ∈ consequences rules t, u ∈ S)
    (hqueue : ∀ t ∈ queue, t ∈ S) : ∀ u ∈ drain rules queue seen, u ∈ S := by
  fun_induction drain rules queue seen with
  | case1 => exact fun u hu => nomatch hu
  | case2 t queue seen found ih =>
    obtain ⟨ht, hqueue⟩ := List.forall_mem_cons.mp hqueue
    have hfound : ∀ u ∈ found.1, u ∈ S := fun u hu => hS t ht u (mem_fresh.mp hu).1
    refine List.forall_mem_append.mpr ⟨hfound, ih (List.forall_mem_append.mpr ⟨hqueue, hfound⟩)⟩

/-- What follows from a statement that waits or is found was seen or is found. -/
theorem drain_complete (rules : List InverseRule) (queue : List Triple) (seen : Triples) :
    ∀ t ∈ queue ++ drain rules queue seen, ∀ u ∈ consequences rules t,
      u ∈ seen ∨ u ∈ drain rules queue seen := by
  fun_induction drain rules queue seen with
  | case1 => exact fun t ht => nomatch ht
  | case2 t queue seen found ih =>
    -- what is seen after the turn was seen before or is found by it
    have hseen : ∀ u, u ∈ found.2 → u ∈ seen ∨ u ∈ found.1 := by
      intro u hu
      by_cases hold : u ∈ seen
      · exact .inl hold
      · exact .inr (mem_fresh.mpr ⟨(mem_fresh_seen.mp hu).resolve_left hold, hold⟩)
    have hsplit : ∀ u, u ∈ found.2 ∨ u ∈ drain rules (queue ++ found.1) found.2 →
        u ∈ seen ∨ u ∈ found.1 ++ drain rules (queue ++ found.1) found.2 := by
      rintro u (hu | hu)
      · exact (hseen u hu).imp_right (List.mem_append_left _)
      · exact .inr (List.mem_append_right _ hu)
    intro s hs u hu
    rw [List.cons_append, List.mem_cons, ← List.append_assoc] at hs
    rcases hs with rfl | hs
    · exact hsplit u (.inl (mem_fresh_seen.mpr (.inr hu)))
    · exact hsplit u (ih s hs u hu)

/-! ## The closure -/

/-- A closure holds the statements it is made of. -/
theorem mem_close_of_mem (h : t ∈ ts) : t ∈ close ts :=
  List.mem_append_left _ (mem_fresh.mpr ⟨h, by simp⟩)

/-- A set holds some statements, and all that follows by the rules which these declare. -/
structure Closed (ts : List Triple) (S : Set Triple) : Prop where
  /-- The statements are in it. -/
  given : ∀ t ∈ ts, t ∈ S
  /-- What follows from a statement of the one property is in it. -/
  forward : ∀ p q s o, ⟨p, Uri.owlInverseOf, q⟩ ∈ ts → ⟨s, p, o⟩ ∈ S → ⟨o, q, s⟩ ∈ S
  /-- What follows from a statement of its inverse is in it. -/
  backward : ∀ p q s o, ⟨p, Uri.owlInverseOf, q⟩ ∈ ts → ⟨s, q, o⟩ ∈ S → ⟨o, p, s⟩ ∈ S

theorem closed_iff {S : Set Triple} : Closed ts S ↔
    (∀ t ∈ ts, t ∈ S) ∧ ∀ t ∈ S, ∀ u ∈ consequences (ofTriples ts) t, u ∈ S := by
  constructor
  · rintro ⟨hgiven, hforward, hbackward⟩
    refine ⟨hgiven, fun t ht u hu => ?_⟩
    obtain ⟨r, hr, ⟨hp, rfl⟩ | ⟨hp, rfl⟩⟩ := mem_consequences.mp hu
    · exact hforward _ _ _ _ (mem_ofTriples.mp hr) (hp ▸ ht)
    · exact hbackward _ _ _ _ (mem_ofTriples.mp hr) (hp ▸ ht)
  · rintro ⟨hgiven, hrules⟩
    refine ⟨hgiven, fun p q s o hrule h => ?_, fun p q s o hrule h => ?_⟩
    · exact hrules _ h _ (mem_consequences.mpr ⟨⟨p, q⟩, mem_ofTriples.mpr hrule, .inl ⟨rfl, rfl⟩⟩)
    · exact hrules _ h _ (mem_consequences.mpr ⟨⟨p, q⟩, mem_ofTriples.mpr hrule, .inr ⟨rfl, rfl⟩⟩)

/-- The loop with one queue ends for all statements, and computes what the rounds do.  This is a
list without repetition that begins with the statements, each once and in the order of first
occurrence, and as a set it is the least one that is closed. -/
theorem close_isLeast (ts : List Triple) :
    closeQueue ts = close ts ∧ (close ts).Nodup ∧ ts.eraseDups <+: close ts ∧
      IsLeast {S : Set Triple | Closed ts S} {t | t ∈ close ts} := by
  have hqueue := closeQueue_eq_close ts
  obtain ⟨given, hgiven⟩ : ∃ given, given = (fresh ∅ ts).1 := ⟨_, rfl⟩
  obtain ⟨seen, hseen⟩ : ∃ seen, seen = (fresh ∅ ts).2 := ⟨_, rfl⟩
  have hmem : ∀ t, t ∈ given ↔ t ∈ ts := fun t => by simp [hgiven, mem_fresh]
  have hsame : ∀ t, t ∈ seen ↔ t ∈ given := fun t => by simp [hseen, hmem, mem_fresh_seen]
  have hclose : close ts = given ++ drain (ofTriples ts) given seen := by
    rw [← hqueue, closeQueue, hgiven, hseen]
  rw [hclose] at hqueue ⊢
  obtain ⟨hnd, hnew⟩ := nodup_drain (ofTriples ts) given seen
  refine ⟨hqueue, ?_, ?_, ?_, fun S hS t ht => ?_⟩
  · refine List.nodup_append'.mpr ⟨hgiven ▸ nodup_fresh _ _, hnd, fun t ht ht' => ?_⟩
    exact hnew t ht' ((hsame t).mpr ht)
  · rw [← fresh_empty, ← hgiven]
    exact List.prefix_append _ _
  · refine closed_iff.mpr ⟨fun t ht => List.mem_append_left _ ((hmem t).mpr ht), ?_⟩
    intro t ht u hu
    refine List.mem_append.mpr ?_
    exact (drain_complete _ _ _ t ht u hu).imp_left (hsame u).mp
  · obtain ⟨hin, hrules⟩ := closed_iff.mp hS
    have hinit : ∀ t ∈ given, t ∈ S := fun t ht => hin t ((hmem t).mp ht)
    exact (List.mem_append.mp ht).elim (hinit t) (drain_subset hrules hinit t)

end Inference

end TripleStore
