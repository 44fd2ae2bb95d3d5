import TripleStore.Json.Shape

/-!
# What readers do to a text

A reader either takes a part off the front of a text and answers, or it stops.
`Goes` says which of the two, and what is left.  It says nothing of places, as
these matter to messages alone.

A reader is made of others, and there is one rule for each way to make it.  A
repetition goes as its steps go.  Each of them has to take a character, so the
bound on their number is never met.
-/

namespace TripleStore.Json.Reader

variable {α β σ : Type} {r : Reader α} {f : α → Reader β} {a : α} {xs ys zs : List Char}
  {o : Option (α × List Char)} {p : Option (β × List Char)}

/-- A reader that has a text before it answers and leaves the rest of it, or stops. -/
def Goes (r : Reader α) (xs : List Char) : Option (α × List Char) → Prop
  | some (a, ys) => ∀ n, ∃ m, r.run ⟨xs, n⟩ = (.ok a, ⟨ys, m⟩)
  | none => ∀ n, ∃ e i, r.run ⟨xs, n⟩ = (.error e, i)

/-! ## Sequences -/

variable {i j : Input} {e : Stop}

theorem run_bind_ok (h : r.run i = (.ok a, j)) : (r >>= f).run i = (f a).run j := by
  simp only [ExceptT.run, bind, ExceptT.bind, ExceptT.mk, StateT.bind] at h ⊢
  rw [h]
  rfl

theorem run_bind_error (h : r.run i = (.error e, j)) : (r >>= f).run i = (.error e, j) := by
  simp only [ExceptT.run, bind, ExceptT.bind, ExceptT.mk, StateT.bind] at h ⊢
  rw [h]
  rfl

theorem goes_pure (a : α) (xs : List Char) : (pure a : Reader α).Goes xs (some (a, xs)) :=
  fun n => ⟨n, rfl⟩

theorem goes_stop (cause : Cause) (xs : List Char) : (stop cause : Reader α).Goes xs none :=
  fun n => ⟨⟨cause, none⟩, ⟨xs, n⟩, rfl⟩

/-- After a reader that answers it goes as the next one does. -/
theorem Goes.bind (h : r.Goes xs (some (a, ys))) (h' : (f a).Goes ys p) : (r >>= f).Goes xs p := by
  cases p with
  | none =>
    intro n
    obtain ⟨m, hm⟩ := h n
    obtain ⟨e, i, he⟩ := h' m
    exact ⟨e, i, (run_bind_ok hm).trans he⟩
  | some p =>
    intro n
    obtain ⟨m, hm⟩ := h n
    obtain ⟨l, hl⟩ := h' m
    exact ⟨l, (run_bind_ok hm).trans hl⟩

/-- After a reader that stops no other one is run. -/
theorem Goes.bind_none (h : r.Goes xs none) : (r >>= f).Goes xs none := by
  intro n
  obtain ⟨e, i, he⟩ := h n
  exact ⟨e, i, run_bind_error he⟩

/-- A reader whose answer is replaced. -/
theorem Goes.bind_map {g : α → β} (h : r.Goes xs o) (hf : ∀ a, f a = pure (g a)) :
    (r >>= f).Goes xs (o.map fun p => (g p.1, p.2)) := by
  cases o with
  | none => exact h.bind_none
  | some p =>
    refine h.bind ?_
    rw [hf]
    exact goes_pure (g p.1) p.2

/-- Where a fault is said to be makes no difference. -/
theorem Goes.placed (h : r.Goes xs o) : (placed r).Goes xs o := by
  cases o with
  | none =>
    intro n
    obtain ⟨⟨cause, place⟩, i, he⟩ := h n
    cases place with
    | none =>
      refine ⟨⟨cause, some i.offset⟩, i, ?_⟩
      simp only [ExceptT.run, Reader.placed] at he ⊢
      rw [he]
    | some k =>
      refine ⟨⟨cause, some k⟩, i, ?_⟩
      simp only [ExceptT.run, Reader.placed] at he ⊢
      rw [he]
  | some p =>
    intro n
    obtain ⟨m, hm⟩ := h n
    refine ⟨m, ?_⟩
    simp only [ExceptT.run, Reader.placed] at hm ⊢
    rw [hm]

/-- A value is followed by the end of what it is in. -/
theorem Goes.within {close : Reader Unit} (h : r.Goes xs (some (a, ys)))
    (hc : close.Goes ys (some ((), zs))) : (within r close).Goes xs (some (a, zs)) := by
  intro n
  obtain ⟨m, hm⟩ := h n
  obtain ⟨l, hl⟩ := hc m
  refine ⟨l, ?_⟩
  simp only [ExceptT.run, Reader.within] at hm hl ⊢
  rw [hm]
  simp only [hl]
  rfl

theorem Goes.within_none {close : Reader Unit} (h : r.Goes xs none) :
    (Reader.within r close).Goes xs none := by
  intro n
  obtain ⟨e, i, he⟩ := h n
  refine ⟨e, (close.run i).2, ?_⟩
  simp only [ExceptT.run, Reader.within] at he ⊢
  rw [he]

/-! ## Characters -/

variable {c : Char}

theorem goes_peek (xs : List Char) : peek.Goes xs (some (xs.head?, xs)) := fun n => ⟨n, rfl⟩

theorem goes_advance (c : Char) (xs : List Char) : advance.Goes (c :: xs) (some ((), xs)) :=
  fun n => ⟨n + c.utf8Size, rfl⟩

theorem goes_afterSpaces (hc : isSpace c = false) (xs : List Char) :
    afterSpaces.Goes (c :: xs) (some (some c, c :: xs)) := by
  have hskip : skipSpaces.Goes (c :: xs) (some ((), c :: xs)) := by
    refine fun n => ⟨n, ?_⟩
    show (Except.ok (), Input.mk ((c :: xs).dropWhile isSpace)
      (n + ((c :: xs).takeWhile isSpace).length)) = _
    simp [hc]
  exact hskip.bind (goes_peek _)

theorem goes_afterSpaces_nil : afterSpaces.Goes [] (some (none, [])) := fun n => ⟨n, rfl⟩

theorem goes_valueAhead (hc : isSpace c = false) (xs : List Char) :
    valueAhead.Goes (c :: xs) (some (c, c :: xs)) :=
  (goes_afterSpaces hc xs).bind (goes_pure c _)

/-! ## Repetitions -/

/-- Steps that take characters, and then one that gives a result or stops. -/
inductive Repeats (step : σ → Reader (σ ⊕ α)) : σ → List Char → Option (α × List Char) → Prop
  | done {s : σ} {xs ys : List Char} {a : α} :
    (step s).Goes xs (some (.inr a, ys)) → Repeats step s xs (some (a, ys))
  | stop {s : σ} {xs : List Char} : (step s).Goes xs none → Repeats step s xs none
  | more {s s' : σ} {xs ys : List Char} {o : Option (α × List Char)} :
    (step s).Goes xs (some (.inl s', ys)) → ys.length < xs.length → Repeats step s' ys o →
      Repeats step s xs o

variable {step : σ → Reader (σ ⊕ α)} {s : σ}

theorem Repeats.loop (h : Repeats step s xs o) {bound : Nat} (hb : xs.length < bound) :
    (Reader.loop step bound s).Goes xs o := by
  induction h generalizing bound with
  | done hstep =>
    obtain ⟨bound, rfl⟩ := Nat.exists_eq_succ_of_ne_zero (Nat.ne_zero_of_lt hb)
    exact hstep.bind (goes_pure _ _)
  | stop hstep =>
    obtain ⟨bound, rfl⟩ := Nat.exists_eq_succ_of_ne_zero (Nat.ne_zero_of_lt hb)
    exact hstep.bind_none
  | more hstep hlen _ ih =>
    obtain ⟨bound, rfl⟩ := Nat.exists_eq_succ_of_ne_zero (Nat.ne_zero_of_lt hb)
    exact hstep.bind (ih (by omega))

/-- A repetition goes as its steps go. -/
theorem Repeats.goes (h : Repeats step s xs o) : (repeated step s).Goes xs o := by
  have hget : (getThe Input : Reader Input) >>= (fun i =>
      Reader.loop step (2 * i.rest.length + 2) s) = repeated step s := rfl
  have hloop : (Reader.loop step (2 * xs.length + 2) s).Goes xs o := h.loop (by omega)
  rw [← hget]
  cases o with
  | none =>
    intro n
    obtain ⟨e, i, he⟩ := hloop n
    exact ⟨e, i, he⟩
  | some p =>
    intro n
    obtain ⟨m, hm⟩ := hloop n
    exact ⟨m, hm⟩

/-! ## Whole texts -/

/-- A text that is taken whole is read, and one that a reader stops at is not. -/
theorem ofText_eq_ok {text : String} {o : Option α} (h : r.Goes text.toList (o.map (·, []))) :
    r.ofText text = .ok a ↔ o = some a := by
  cases o with
  | none =>
    obtain ⟨e, i, he⟩ := h.bind_none (f := fun a => do
      if (← afterSpaces).isSome then stopAhead .trailing
      return a) 0
    have hrun : (whole r).run ⟨text.toList, 0⟩ = (.error e, i) := he
    simp only [Reader.ofText, hrun]
    exact ⟨nofun, nofun⟩
  | some b =>
    have hwhole : (whole r).Goes text.toList (some (b, [])) :=
      Goes.bind h (goes_afterSpaces_nil.bind (goes_pure b []))
    obtain ⟨m, hm⟩ := hwhole 0
    simp only [Reader.ofText, hm]
    constructor
    · intro hb
      rw [Except.ok.inj hb]
    · intro hb
      rw [Option.some.inj hb]

end TripleStore.Json.Reader
