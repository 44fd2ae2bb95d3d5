import TripleStore.Proofs.Dictionary

/-!
# Dictionaries that calls lead to

A dictionary is changed by two calls: one registers a term, the other a batch.
Both work on the tables in place, so a call that fails may leave something
behind.  `Runs` says what a call answers and what it leaves, and it leaves open
in which order the staged terms of a batch are entered.  `registerAll` is the
run that enters them by ascending checksum.

A batch adds its terms with their keys and nothing else, or it fails and adds
nothing.  So every dictionary that calls lead to, failing ones among them, is
sound, and that is why nobody has to look for a collision once a term has a key.

`keys_name_terms` puts together what keys are good for: the key of a known term
leads back to it, and no term, known or not, gets the key of another one.
-/

namespace TripleStore

namespace Dictionary

/-! ## Calls -/

/-- Register terms one by one, up to the first that fails.  What was entered before stays. -/
def enterEach (d : Dictionary) (graph : String) : List Uri → Except Fault Unit × Dictionary
  | [] => (.ok (), d)
  | u :: us =>
    match d.register graph u with
    | .ok (_, d) => enterEach d graph us
    | .error f => (.error f, d)

/-- A call that may change a dictionary. -/
inductive Call where
  /-- Register a term of a graph. -/
  | one (graph : String) (u : Uri)
  /-- Register a batch of terms of a graph. -/
  | batch (graph : String) (us : List Uri)

/-- What a call answers and the dictionary it leaves, also if it fails.  The staged terms of a
batch are entered in some order. -/
inductive Runs (d : Dictionary) : Call → Except Fault Unit → Dictionary → Prop
  /-- A term is registered. -/
  | registered {graph : String} {u : Uri} {k : Key} {d' : Dictionary} :
      d.register graph u = .ok (k, d') → Runs d (.one graph u) (.ok ()) d'
  /-- A term is refused before it is entered. -/
  | refused {graph : String} {u : Uri} {f : Fault} :
      d.register graph u = .error f → Runs d (.one graph u) (.error f) d
  /-- A batch is refused while it is staged. -/
  | unstaged {graph : String} {us : List Uri} {f : Fault} :
      stage d ∅ us = .error f → Runs d (.batch graph us) (.error f) d
  /-- A batch is staged, and then its terms are entered as far as that goes. -/
  | staged {graph : String} {us ws : List Uri} {staged : Std.ExtTreeMap UInt32 Uri compare}
      {outcome : Except Fault Unit} {d' : Dictionary} :
      stage d ∅ us = .ok staged → ws.Perm (staged.toList.map (·.2)) →
        d.enterEach graph ws = (outcome, d') → Runs d (.batch graph us) outcome d'

/-- A dictionary that calls lead to, whether they succeed or not. -/
inductive Reached : Dictionary → Prop
  /-- The dictionary without terms. -/
  | empty : Reached .empty
  /-- A call. -/
  | call {d d' : Dictionary} {c : Call} {outcome : Except Fault Unit} :
      Reached d → d.Runs c outcome d' → Reached d'

variable {d d' d'' : Dictionary} {g graph : String} {u w : Uri} {us ws : List Uri} {k : Key}
  {v : UInt64} {outcome : Except Fault Unit}

/-! ## What is added -/

/-- A dictionary has some terms of a graph, with their keys, and else what another one has. -/
structure Adds (d : Dictionary) (graph : String) (us : List Uri) (d' : Dictionary) : Prop where
  /-- The terms are kept under their checksums, besides those that were there. -/
  terms : ∀ (hash : UInt32) (u : Uri), d'.terms[hash]? = some u ↔
    d.terms[hash]? = some u ∨ u ∈ us ∧ Dictionary.checksum u = hash
  /-- They have their keys in the graph, and no other term gets one. -/
  keys : ∀ (g : String) (u : Uri), d'.key? g u =
    if graph = g ∧ u ∈ us then some (Key.ofUri g u 0) else d.key? g u

theorem adds_nil (d : Dictionary) (graph : String) : d.Adds graph [] d where
  terms hash u := by simp
  keys g u := by simp

theorem Adds.cons (h : d.Adds graph [u] d') (h' : d'.Adds graph us d'') :
    d.Adds graph (u :: us) d'' where
  terms hash w := by
    rw [h'.terms, h.terms, List.mem_singleton, List.mem_cons, or_and_right, or_assoc]
  keys g w := by
    rw [h'.keys, h.keys]
    by_cases hg : graph = g
    · by_cases hw : w ∈ us
      · simp [hg, hw]
      · simp [hg, hw]
    · simp [hg]

/-- What is added depends on which terms there are and not on their order. -/
theorem Adds.congr (h : d.Adds graph ws d') (hmem : ∀ u, u ∈ ws ↔ u ∈ us) :
    d.Adds graph us d' where
  terms hash u := by rw [h.terms, hmem]
  keys g u := by simp only [h.keys, hmem]

/-- A term that is entered under its checksum, which is free or its own, is added. -/
theorem adds_enter (hfree : ∀ w, d.terms[Dictionary.checksum u]? = some w → w = u) :
    d.Adds graph [u] (d.enter graph u (Key.ofUri graph u 0)) where
  terms hash w := by
    have hname : (Key.ofUri graph u 0).name = Dictionary.checksum u := rfl
    rw [terms_enter, hname, List.mem_singleton]
    constructor
    · intro h
      split at h
      · next heq =>
        cases h
        exact .inr ⟨rfl, heq⟩
      · exact .inl h
    · rintro (h | ⟨rfl, rfl⟩)
      · split
        · next heq => rw [hfree w (heq ▸ h)]
        · exact h
      · exact if_pos rfl
  keys g w := by
    rw [key?_enter]
    by_cases h : graph = g ∧ u = w
    · obtain ⟨rfl, rfl⟩ := h
      simp
    · have h' : ¬ (graph = g ∧ w ∈ [u]) := by simpa [eq_comm] using h
      rw [if_neg h, if_neg h']

/-- A term that is registered has its key, and it is all that is added. -/
theorem Sound.register_adds (h : d.Sound) (hr : d.register graph u = .ok (k, d')) :
    k = Key.ofUri graph u 0 ∧ d.Adds graph [u] d' := by
  rw [Dictionary.register] at hr
  split at hr
  · next k' hk' =>
    obtain ⟨rfl, rfl⟩ := Prod.mk.inj (Except.ok.inj hr)
    obtain ⟨hk, hknows⟩ := h.key graph u k' hk'
    -- it was there, so nothing changes by adding it
    refine ⟨hk, fun hash w => ?_, fun g w => ?_⟩
    · rw [List.mem_singleton]
      refine (or_iff_left_of_imp ?_).symm
      rintro ⟨rfl, rfl⟩
      exact hknows
    · split
      · next hw =>
        obtain ⟨rfl, hw⟩ := hw
        rw [List.mem_singleton.mp hw, hk', hk]
      · rfl
  · obtain ⟨⟨⟩, hfree, hr⟩ := bind_eq_ok.mp hr
    obtain ⟨rfl, rfl⟩ := Prod.mk.inj (Except.ok.inj hr)
    exact ⟨rfl, adds_enter (checkFree_eq_ok.mp hfree)⟩

theorem Sound.registerEach_adds (h : d.Sound) (hr : d.registerEach graph us = .ok d') :
    d.Adds graph us d' := by
  induction us generalizing d with
  | nil =>
    obtain rfl := Except.ok.inj hr
    exact adds_nil d graph
  | cons u us ih =>
    rw [Dictionary.registerEach] at hr
    obtain ⟨⟨k, d₁⟩, hone, hr⟩ := bind_eq_ok.mp hr
    exact (h.register_adds hone).2.cons (ih (h.register hone).1 hr)

/-! ## One call -/

/-- Terms that can all be registered are all entered. -/
theorem enterEach_of_registerEach (h : d.registerEach graph us = .ok d') :
    d.enterEach graph us = (.ok (), d') := by
  induction us generalizing d with
  | nil =>
    obtain rfl := Except.ok.inj h
    rfl
  | cons u us ih =>
    rw [Dictionary.registerEach] at h
    obtain ⟨⟨k, d₁⟩, hone, h⟩ := bind_eq_ok.mp h
    rw [enterEach, hone]
    exact ih h

theorem mem_of_stage {staged staged' : Std.ExtTreeMap UInt32 Uri compare} {hash : UInt32}
    (h : stage d staged us = .ok staged') (hw : staged'[hash]? = some w) :
    staged[hash]? = some w ∨ w ∈ us := by
  induction us generalizing staged with
  | nil =>
    obtain rfl := Except.ok.inj h
    exact .inl hw
  | cons u us ih =>
    rw [stage] at h
    obtain ⟨-, -, h⟩ := bind_eq_ok.mp h
    obtain ⟨-, -, h⟩ := bind_eq_ok.mp h
    rcases ih h with hw | hw
    · rw [Std.ExtTreeMap.getElem?_insert] at hw
      split at hw
      · cases hw
        exact .inr List.mem_cons_self
      · exact .inl hw
    · exact .inr (List.mem_cons_of_mem _ hw)

/-- The terms that are staged are those of the batch. -/
theorem mem_staged_iff {staged : Std.ExtTreeMap UInt32 Uri compare}
    (h : stage d ∅ us = .ok staged) : u ∈ staged.toList.map (·.2) ↔ u ∈ us := by
  rw [List.mem_map]
  constructor
  · rintro ⟨p, hp, rfl⟩
    have hentry := Std.ExtTreeMap.mem_toList_iff_getElem?_eq_some.mp hp
    exact (mem_of_stage h hentry).resolve_left (by simp)
  · intro hu
    exact ⟨_, Std.ExtTreeMap.mem_toList_iff_getElem?_eq_some.mpr ((stage_spec h).2 u hu), rfl⟩

/-- A batch that is staged is entered whole, in whatever order. -/
theorem Sound.enterEach_of_stage {staged : Std.ExtTreeMap UInt32 Uri compare} (graph : String)
    (hd : d.Sound) (h : stage d ∅ us = .ok staged) (hperm : ws.Perm (staged.toList.map (·.2))) :
    ∃ d', d.enterEach graph ws = (.ok (), d') ∧ d'.Sound ∧ d.Adds graph us d' := by
  obtain ⟨hfree, hdiff⟩ := staged_values h
  have hdiff : ws.Pairwise fun u w => Dictionary.checksum u ≠ Dictionary.checksum w :=
    (hperm.pairwise_iff fun hne => hne.symm).mpr hdiff
  obtain ⟨d', hd'⟩ := exists_registerEach (g := graph)
    (fun u hu => hfree u (hperm.mem_iff.mp hu)) hdiff
  refine ⟨d', enterEach_of_registerEach hd', (hd.registerEach hd').1, ?_⟩
  exact (hd.registerEach_adds hd').congr fun u => hperm.mem_iff.trans (mem_staged_iff h)

/-- A batch adds all its terms, or it fails because terms collide and adds nothing. -/
theorem Runs.batch (hd : d.Sound) (h : d.Runs (.batch graph us) outcome d') :
    (outcome = .ok () ∧ d'.Sound ∧ d.Adds graph us d') ∨
      (∃ known incoming, outcome = .error (.collision known incoming) ∧
        Collide known incoming) ∧ d' = d := by
  cases h with
  | unstaged hfail =>
    obtain ⟨known, incoming, rfl, hcollide⟩ := stage_eq_error hd (by simp) hfail
    exact .inr ⟨⟨known, incoming, rfl, hcollide⟩, rfl⟩
  | staged hstage hperm hrun =>
    obtain ⟨d'', hrun', hsound, hadds⟩ := hd.enterEach_of_stage graph hstage hperm
    cases hrun.symm.trans hrun'
    exact .inl ⟨rfl, hsound, hadds⟩

/-- What `registerAll` does is a run of the batch. -/
theorem runs_registerAll (d : Dictionary) (graph : String) (us : List Uri) :
    match d.registerAll graph us with
    | .ok d' => d.Runs (.batch graph us) (.ok ()) d'
    | .error f => d.Runs (.batch graph us) (.error f) d := by
  cases h : d.registerAll graph us with
  | error f => exact .unstaged (registerAll_eq_error.mp h)
  | ok d' =>
    obtain ⟨staged, hstage, h⟩ := bind_eq_ok.mp h
    exact .staged hstage (.refl _) (enterEach_of_registerEach h)

/-- A call keeps a dictionary sound, whether it succeeds or not. -/
theorem Runs.sound {c : Call} (hd : d.Sound) (h : d.Runs c outcome d') : d'.Sound := by
  cases c with
  | one graph u =>
    cases h with
    | registered hr => exact (hd.register hr).1
    | refused _ => exact hd
  | batch graph us =>
    rcases h.batch hd with ⟨-, hsound, -⟩ | ⟨-, rfl⟩
    · exact hsound
    · exact hd

/-! ## All calls -/

theorem Reached.sound (h : d.Reached) : d.Sound := by
  induction h with
  | empty => exact sound_empty
  | call _ hrun ih => exact hrun.sound ih

/-- A term without a key has the checksum of a known one. -/
theorem exists_collision_of_keyFor {f : Fault} (h : d.keyFor graph u v = .error f) :
    ∃ known, f = .collision known u := by
  rw [keyFor] at h
  split at h
  · cases h
  · rcases bind_eq_error.mp h with h | ⟨-, -, h⟩
    · obtain ⟨known, -, -, rfl⟩ := checkFree_eq_error.mp h
      exact ⟨known, rfl⟩
    · cases h

/-- A term with a key does not have the checksum of another known one. -/
theorem Sound.eq_of_keyFor (hd : d.Sound) (hw : d.Knows w) (h : d.keyFor graph u v = .ok k)
    (hname : Dictionary.checksum w = Dictionary.checksum u) : w = u := by
  rw [Knows, hname] at hw
  rw [keyFor] at h
  split at h
  · next k' hk' => exact Option.some.inj (hw.symm.trans (hd.key graph u k' hk').2)
  · obtain ⟨⟨⟩, hfree, -⟩ := bind_eq_ok.mp h
    exact checkFree_eq_ok.mp hfree w hw

/-- Keys never stand for another term than their own. -/
theorem keys_name_terms (h : d.Reached) :
    d.Sound ∧
    (∀ u graph v, d.Knows u → ∃ k, d.keyFor graph u v = .ok k ∧ d.term? k = some u) ∧
    (∀ u w graph v k, d.Knows u → d.Knows w → d.keyFor graph u v = .ok k →
      d.keyFor graph w v = .ok k → u = w) ∧
    (∀ u graph v, (∃ known, d.keyFor graph u v = .error (.collision known u)) ∨
      ∃ k, d.keyFor graph u v = .ok k ∧
        ∀ w graph' v', d.Knows w → d.keyFor graph' w v' = .ok k → w = u) ∧
    ∀ graph us, (∃ outcome d', d.Runs (.batch graph us) outcome d') ∧
      ∀ outcome d', d.Runs (.batch graph us) outcome d' →
        (outcome = .ok () ∧ d.Adds graph us d') ∨
          (∃ known incoming, outcome = .error (.collision known incoming)) ∧ d' = d := by
  have hd := h.sound
  have hsame : ∀ u w graph graph' v v' k, d.Knows w → d.keyFor graph u v = .ok k →
      d.keyFor graph' w v' = .ok k → w = u := by
    intro u w graph graph' v v' k hw hu hw'
    have hname : Key.ofUri graph' w v' = Key.ofUri graph u v :=
      (hd.keyFor_eq hw').symm.trans (hd.keyFor_eq hu)
    exact hd.eq_of_keyFor hw hu (congrArg Key.name hname)
  refine ⟨hd, fun u graph v hu => ?_, fun u w graph v k hu _ hku hkw => ?_,
    fun u graph v => ?_, fun graph us => ⟨?_, fun outcome d' hrun => ?_⟩⟩
  · obtain ⟨k, hk⟩ : ∃ k, d.keyFor graph u v = .ok k := hu.exists_keyFor
    exact ⟨k, hk, hd.keyFor_eq hk ▸ hu⟩
  · exact hsame w u graph graph v v k hu hkw hku
  · cases hk : d.keyFor graph u v with
    | error f =>
      obtain ⟨known, rfl⟩ := exists_collision_of_keyFor hk
      exact .inl ⟨known, rfl⟩
    | ok k => exact .inr ⟨k, rfl, fun w graph' v' hw hkw => hsame u w _ _ _ _ k hw hk hkw⟩
  · have hruns := runs_registerAll d graph us
    split at hruns
    · exact ⟨_, _, hruns⟩
    · exact ⟨_, _, hruns⟩
  · rcases hrun.batch hd with ⟨hok, -, hadds⟩ | ⟨⟨known, incoming, hfail, -⟩, rfl⟩
    · exact .inl ⟨hok, hadds⟩
    · exact .inr ⟨⟨known, incoming, hfail⟩, rfl⟩

/-- A dictionary with one term, which stays as it is when a term of the same checksum comes in
a batch. -/
def taken : Dictionary := empty.enter "g" ⟨"", "plumless"⟩ (Key.ofUri "g" ⟨"", "plumless"⟩ 0)

theorem keys_name_terms_taken :
    taken.Reached ∧ taken.Knows ⟨"", "plumless"⟩ ∧
      (∃ k, taken.keyFor "h" ⟨"", "plumless"⟩ 7 = .ok k ∧ taken.term? k = some ⟨"", "plumless"⟩) ∧
      ∃ outcome d', taken.Runs (.batch "h" [⟨"", "p"⟩, ⟨"", "buckeroo"⟩]) outcome d' ∧
        d' = taken := by
  have hone : Dictionary.empty.register "g" ⟨"", "plumless"⟩ =
      .ok (Key.ofUri "g" ⟨"", "plumless"⟩ 0, taken) := by rfl
  have hreached : taken.Reached := .call .empty (.registered hone)
  have hknows : taken.Knows ⟨"", "plumless"⟩ := by
    rw [Knows, taken, terms_enter]
    exact if_pos rfl
  obtain ⟨-, hback, -, -, hbatch⟩ := keys_name_terms hreached
  have hfail : stage taken ∅ [⟨"", "p"⟩, ⟨"", "buckeroo"⟩] =
      .error (.collision ⟨"", "plumless"⟩ ⟨"", "buckeroo"⟩) := by decide +kernel
  have hrun : taken.Runs (.batch "h" [⟨"", "p"⟩, ⟨"", "buckeroo"⟩]) _ taken := .unstaged hfail
  refine ⟨hreached, hknows, hback _ _ _ hknows, _, taken, hrun, ?_⟩
  rcases (hbatch "h" _).2 _ _ hrun with ⟨hok, -⟩ | ⟨-, hsame⟩
  · cases hok
  · exact hsame

end Dictionary

end TripleStore
