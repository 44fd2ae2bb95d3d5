import TripleStore.Proofs.Outcome
import TripleStore.Proofs.Walk.Explore

/-!
# Walks with shortcuts

A walk over shortcuts as well as statements finds what a walk over the statements
alone finds, as each shortcut stands for such a walk.  This holds for any two
sources that read the same keys, whatever else they hold.  The entities that a
walk visits may come in another order, so a walk that meets an entity that cannot
be read may fail in another way.  But it fails in both sources or in none.

For this an exploration is described exactly: it ends well if and only if all
that hops lead to can be read.
-/

open Relation

namespace TripleStore

namespace Reading

variable {hops : Entity → List Key} {src src' : Source} {start : Key} {r : Reach}

/-! ## Explorations that end well -/

/-- An exploration that ends well has read all that hops lead to. -/
theorem readable_of_explore {queue : List Key} {seen reached : Keys}
    (h : Explored hops src start queue seen reached) (hseen : ∀ a ∈ seen, ∃ e, src a = .ok e)
    (hr : (explore hops src queue seen reached).1 = .ok r) :
    ∀ b, ReflTransGen (Step hops src) start b → ∃ e, src b = .ok e := by
  fun_induction explore hops src queue seen reached with
  | case1 queue seen reached hq =>
    intro b hb
    exact hseen b (((h.done hq).1 b).mpr hb)
  | case2 queue seen reached k rest hq err herr => cases hr
  | case3 queue seen reached k rest hq e he targets waiting answer log hlog ih =>
    rw [hlog] at ih
    refine ih (h.visit hq he) ?_ hr
    intro a ha
    rcases Keys.mem_insert_iff.mp ha with rfl | ha
    · exact ⟨e, he⟩
    · exact hseen a ha

/-- What an exploration finds from a start, if it ends well. -/
structure Spreads (hops : Entity → List Key) (src : Source) (start : Key) (r : Reach) : Prop where
  /-- All that hops lead to can be read. -/
  readable : ∀ b, ReflTransGen (Step hops src) start b → ∃ e, src b = .ok e
  /-- What hops lead to was visited. -/
  seen : ∀ b, b ∈ r.seen ↔ ReflTransGen (Step hops src) start b
  /-- What one hop or more lead to was found. -/
  reached : ∀ b, b ∈ r.reached ↔ TransGen (Step hops src) start b

theorem spread_eq_ok_iff {first : Entity} (hfirst : src start = .ok first) :
    (spread hops start first).answer src = .ok r ↔ Spreads hops src start r := by
  constructor
  · intro h
    have hstart : ∀ a ∈ (∅ : Keys).insert start, ∃ e, src a = .ok e := by
      intro a ha
      obtain rfl := mem_singleton_iff.mp ha
      exact ⟨first, hfirst⟩
    have hread := readable_of_explore (explored_start hfirst) hstart h
    obtain ⟨r', hr', hseen, hreached⟩ := spread_spec hfirst hread
    cases hr'.symm.trans h
    exact ⟨hread, hseen, hreached⟩
  · intro h
    obtain ⟨r', hr', hseen, hreached⟩ := spread_spec hfirst h.readable
    have heq : r' = r := Reach.ext
      (Std.ExtTreeSet.ext_mem fun b => (hreached b).trans (h.reached b).symm)
      (Std.ExtTreeSet.ext_mem fun b => (hseen b).trans (h.seen b).symm)
    rw [hr', heq]

/-! ## Shortcuts -/

/-- A source reads the same keys as another one, with the same statements and more shortcuts.
Each edge stands for a walk over the edges of the other. -/
structure Shortened (src src' : Source) : Prop where
  /-- The same keys are read. -/
  readable : ∀ k, (∃ e, src' k = .ok e) ↔ ∃ e, src k = .ok e
  /-- The statements are the same. -/
  statements : ∀ (d : Direction) (p a b : Key),
    Step (d.statements p) src' a b ↔ Step (d.statements p) src a b
  /-- No edge is lost. -/
  kept : ∀ (d : Direction) (p a b : Key), Step (d.hops p) src a b → Step (d.hops p) src' a b
  /-- Each edge stands for a walk. -/
  sound : ∀ (d : Direction) (p a b : Key), Step (d.hops p) src' a b →
    TransGen (Step (d.hops p) src) a b

namespace Shortened

variable {d : Direction} {p a b : Key}

/-- Shortcuts lead nowhere else. -/
theorem transGen_iff (h : Shortened src src') :
    TransGen (Step (d.hops p) src') a b ↔ TransGen (Step (d.hops p) src) a b := by
  constructor
  · intro hab
    induction hab with
    | single hab => exact h.sound d p a _ hab
    | tail _ hbc ih => exact ih.trans (h.sound d p _ _ hbc)
  · intro hab
    exact TransGen.mono (fun a b hab => h.kept d p a b hab) _ _ hab

theorem reflTransGen_iff (h : Shortened src src') :
    ReflTransGen (Step (d.hops p) src') a b ↔ ReflTransGen (Step (d.hops p) src) a b := by
  rw [reflTransGen_iff_eq_or_transGen, reflTransGen_iff_eq_or_transGen, h.transGen_iff]

theorem spreads_iff (h : Shortened src src') :
    Spreads (d.hops p) src' start r ↔ Spreads (d.hops p) src start r := by
  have hreadable : ∀ b, (ReflTransGen (Step (d.hops p) src') start b → ∃ e, src' b = .ok e) ↔
      (ReflTransGen (Step (d.hops p) src) start b → ∃ e, src b = .ok e) :=
    fun b => imp_congr h.reflTransGen_iff (h.readable b)
  constructor
  · rintro ⟨hread, hseen, hreached⟩
    refine ⟨fun b => (hreadable b).mp (hread b), fun b => ?_, fun b => ?_⟩
    · exact (hseen b).trans h.reflTransGen_iff
    · exact (hreached b).trans h.transGen_iff
  · rintro ⟨hread, hseen, hreached⟩
    refine ⟨fun b => (hreadable b).mpr (hread b), fun b => ?_, fun b => ?_⟩
    · exact (hseen b).trans h.reflTransGen_iff.symm
    · exact (hreached b).trans h.transGen_iff.symm

/-- Entities of a key have the same statements. -/
theorem mem_statements {e e' : Entity} (h : Shortened src src') (he : src a = .ok e)
    (he' : src' a = .ok e') : b ∈ d.statements p e' ↔ b ∈ d.statements p e := by
  rw [← step_iff_of_read he, ← step_iff_of_read he', h.statements]

/-- A segment followed in both sources finds the same, or nothing. -/
theorem follow_iff (h : Shortened src src') {seg : Segment} :
    (follow d start seg).answer src' = .ok r ↔ (follow d start seg).answer src = .ok r := by
  obtain ⟨p, q⟩ := seg
  cases he : src start with
  | error f =>
    cases he' : src' start with
    | error f' =>
      rw [follow, answer_bind, answer_bind, answer_entity, answer_entity, he, he']
      refine iff_of_false (fun hr => ?_) fun hr => ?_
      · cases hr
      · cases hr
    | ok e' =>
      obtain ⟨e, hread⟩ := (h.readable start).mp ⟨e', he'⟩
      rw [he] at hread
      cases hread
  | ok e =>
    obtain ⟨e', he'⟩ := (h.readable start).mpr ⟨e, he⟩
    have hstart : (entity start).answer src = .ok e := by rw [answer_entity, he]
    have hstart' : (entity start).answer src' = .ok e' := by rw [answer_entity, he']
    have hmem : ∀ b, b ∈ d.statements p e' ↔ b ∈ d.statements p e :=
      fun b => h.mem_statements he he'
    rw [follow, answer_bind, answer_bind, hstart, hstart']
    cases q with
    | single =>
      have hreached : Keys.ofList (d.statements p e') = Keys.ofList (d.statements p e) :=
        Std.ExtTreeSet.ext_mem fun b => by rw [Keys.mem_ofList, Keys.mem_ofList, hmem]
      show Except.ok (⟨Keys.ofList (d.statements p e'), _⟩ : Reach) = .ok r ↔ _
      rw [hreached]
      exact Iff.rfl
    | zeroOne =>
      have hreached : ∀ here : Keys, Keys.addAll here (d.statements p e') =
          Keys.addAll here (d.statements p e) :=
        fun here => Std.ExtTreeSet.ext_mem fun b => by
          rw [Keys.mem_addAll, Keys.mem_addAll, hmem]
      show Except.ok (⟨Keys.addAll _ (d.statements p e'), _⟩ : Reach) = .ok r ↔ _
      rw [hreached]
      exact Iff.rfl
    | onePlus =>
      show (spread (d.hops p) start e').answer src' = .ok r ↔
        (spread (d.hops p) start e).answer src = .ok r
      rw [spread_eq_ok_iff he', spread_eq_ok_iff he, h.spreads_iff]
    | zeroPlus =>
      have hspread : ∀ r, (spread (d.hops p) start e').answer src' = .ok r ↔
          (spread (d.hops p) start e).answer src = .ok r := by
        intro r
        rw [spread_eq_ok_iff he', spread_eq_ok_iff he, h.spreads_iff]
      show ((spread (d.hops p) start e' >>= fun r =>
          pure { r with reached := r.reached.insert start }) : Reading Reach).answer src' = .ok r ↔
        ((spread (d.hops p) start e >>= fun r =>
          pure { r with reached := r.reached.insert start }) : Reading Reach).answer src = .ok r
      rw [answer_bind, answer_bind, bind_eq_ok, bind_eq_ok]
      exact exists_congr fun r' => and_congr_left fun _ => hspread r'

end Shortened

end Reading

end TripleStore
