import TripleStore.Text.Blank

/-!
# Trimming and splitting

A text is trimmed once: what is left neither starts nor ends in white space.  A
text is split at the first or the last of a character, and the two parts with
that character between them are the text.  The pieces of two texts with a
separator between them are the pieces of the one and then those of the other.
-/

namespace TripleStore.Text

variable {cs as bs : List Char} {c : Char}

/-! ## Trimming -/

theorem isBlank_of_head?_dropWhile (h : (cs.dropWhile isBlank).head? = some c) :
    isBlank c = false := by
  have := List.head?_dropWhile_not isBlank cs
  rwa [h] at this

theorem isBlank_of_getLast?_trimEnd (h : (trimEnd cs).getLast? = some c) : isBlank c = false := by
  rw [trimEnd, List.getLast?_reverse] at h
  exact isBlank_of_head?_dropWhile h

theorem trimEnd_isPrefix (cs : List Char) : trimEnd cs <+: cs := by
  rw [← List.reverse_suffix, trimEnd, List.reverse_reverse]
  exact List.dropWhile_suffix isBlank

theorem isBlank_of_head?_trim (h : (trim cs).head? = some c) : isBlank c = false := by
  obtain ⟨ds, hds⟩ := trimEnd_isPrefix (cs.dropWhile isBlank)
  have hhead : (cs.dropWhile isBlank).head? = some c := by
    rw [← hds, List.head?_append, ← trim, h]
    rfl
  exact isBlank_of_head?_dropWhile hhead

theorem trim_trim (cs : List Char) : trim (trim cs) = trim cs :=
  trim_eq_self (fun _ h => isBlank_of_head?_trim h) fun _ h => isBlank_of_getLast?_trimEnd h

/-- White space in front of a text is lost. -/
theorem trim_dropWhile (cs : List Char) : trim (cs.dropWhile isBlank) = trim cs := by
  rw [trim, trim, dropWhile_eq_self fun _ h => isBlank_of_head?_dropWhile h]

/-- A text that ends in something else than white space loses only what is in front. -/
theorem trim_concat (hc : isBlank c = false) (cs : List Char) :
    trim (cs ++ [c]) = cs.dropWhile isBlank ++ [c] := by
  have hdrop : (cs ++ [c]).dropWhile isBlank = cs.dropWhile isBlank ++ [c] := by
    rw [List.dropWhile_append]
    split
    · next h => simp [List.isEmpty_iff.1 h, hc]
    · rfl
  rw [trim, hdrop, trimEnd_eq_self]
  simpa using hc

theorem trim_isInfix (cs : List Char) : trim cs <:+: cs :=
  (trimEnd_isPrefix _).isInfix.trans (List.dropWhile_suffix isBlank).isInfix

/-- A text that trimming does not shorten is left alone. -/
theorem trim_eq_self_of_length_le (h : cs.length ≤ (trim cs).length) : trim cs = cs :=
  (trim_isInfix cs).eq_of_length_le h

theorem count_dropWhile (hc : isBlank c = false) (cs : List Char) :
    (cs.dropWhile isBlank).count c = cs.count c := by
  induction cs with
  | nil => rfl
  | cons d ds ih =>
    by_cases hd : isBlank d = true
    · have hne : d ≠ c := by
        rintro rfl
        rw [hc] at hd
        cases hd
      rw [List.dropWhile_cons_of_pos hd, ih, List.count_cons_of_ne hne]
    · rw [List.dropWhile_cons_of_neg hd]

/-- Trimming takes no other character away. -/
theorem count_trim (hc : isBlank c = false) (cs : List Char) : (trim cs).count c = cs.count c := by
  rw [trim, trimEnd, List.count_reverse, count_dropWhile hc, List.count_reverse,
    count_dropWhile hc]

/-! ## Splitting -/

theorem splitFirst_cons (p : Char → Bool) (c : Char) (cs : List Char) :
    splitFirst p (c :: cs) =
      if p c then some ([], cs) else (splitFirst p cs).map fun s => (c :: s.1, s.2) := by
  by_cases hc : p c = true
  · simp [splitFirst, hc]
  · simp only [splitFirst, List.dropWhile_cons, List.takeWhile_cons, hc]
    cases cs.dropWhile fun c => !p c <;> simp

theorem splitFirst_eq_some :
    splitFirst (· == c) cs = some (as, bs) ↔ c ∉ as ∧ cs = as ++ c :: bs := by
  induction cs generalizing as with
  | nil => simp [splitFirst]
  | cons d cs ih =>
    rw [splitFirst_cons]
    by_cases hd : d = c
    · subst d
      rw [if_pos (beq_self_eq_true c)]
      constructor
      · rintro ⟨⟩
        exact ⟨List.not_mem_nil, rfl⟩
      · rintro ⟨has, heq⟩
        cases as with
        | nil => cases heq; rfl
        | cons a as => cases heq; exact absurd List.mem_cons_self has
    · rw [if_neg (by simpa using hd), Option.map_eq_some_iff]
      constructor
      · rintro ⟨⟨ds, es⟩, hs, heq⟩
        cases heq
        obtain ⟨hds, rfl⟩ := ih.1 hs
        exact ⟨by simp [hds, Ne.symm hd], rfl⟩
      · rintro ⟨has, heq⟩
        cases as with
        | nil => cases heq; exact absurd rfl hd
        | cons a as =>
          cases heq
          exact ⟨(as, bs), ih.2 ⟨fun h => has (List.mem_cons_of_mem _ h), rfl⟩, rfl⟩

theorem splitFirst_eq_none : splitFirst (· == c) cs = none ↔ c ∉ cs := by
  induction cs with
  | nil => simp [splitFirst]
  | cons d cs ih =>
    rw [splitFirst_cons]
    by_cases hd : d = c
    · simp [hd]
    · simp [hd, ih, Ne.symm hd]

theorem splitLast_eq_some :
    splitLast (· == c) cs = some (as, bs) ↔ c ∉ bs ∧ cs = as ++ c :: bs := by
  rw [splitLast, Option.map_eq_some_iff]
  constructor
  · rintro ⟨⟨ds, es⟩, hs, heq⟩
    obtain ⟨hds, hcs⟩ := splitFirst_eq_some.1 hs
    cases heq
    refine ⟨by simpa using hds, ?_⟩
    rw [← List.reverse_reverse cs, hcs]
    simp
  · rintro ⟨hbs, rfl⟩
    refine ⟨(bs.reverse, as.reverse), splitFirst_eq_some.2 ⟨by simpa using hbs, ?_⟩, ?_⟩
    · simp
    · simp

theorem splitLast_eq_none : splitLast (· == c) cs = none ↔ c ∉ cs := by
  rw [splitLast, Option.map_eq_none_iff, splitFirst_eq_none, List.mem_reverse]

theorem occursIn_iff_isInfix {needle : List Char} : occursIn needle cs = true ↔ needle <:+: cs := by
  induction cs with
  | nil => rw [occursIn, List.isEmpty_iff, List.infix_nil]
  | cons c cs ih => rw [occursIn, Bool.or_eq_true, ih, List.isPrefixOf_iff_prefix,
      List.infix_cons_iff]

/-! ## Pieces -/

variable {sep : Char → Bool}

theorem pieces_ne_nil (cs : List Char) : pieces sep cs ≠ [] := by
  cases cs with
  | nil => exact List.cons_ne_nil _ _
  | cons c cs =>
    rw [pieces, List.foldr_cons]
    split
    · exact List.cons_ne_nil _ _
    · split
      · exact List.cons_ne_nil _ _
      · exact List.cons_ne_nil _ _

theorem pieces_cons : pieces sep (c :: cs) =
    if sep c then [] :: pieces sep cs
    else match pieces sep cs with
      | [] => [[c]]
      | p :: ps => (c :: p) :: ps := rfl

/-- The pieces before a separator and those after it. -/
theorem pieces_append (hc : sep c = true) (xs ys : List Char) :
    pieces sep (xs ++ c :: ys) = pieces sep xs ++ pieces sep ys := by
  induction xs with
  | nil => simp [hc, pieces]
  | cons x xs ih =>
    rw [List.cons_append, pieces_cons, pieces_cons, ih]
    cases hx : sep x with
    | true => simp
    | false =>
      cases hp : pieces sep xs with
      | nil => exact absurd hp (pieces_ne_nil xs)
      | cons p ps => simp

/-- A text without separators is one piece. -/
theorem pieces_eq_singleton (h : ∀ c ∈ cs, sep c = false) :
    pieces sep cs = [cs] := by
  induction cs with
  | nil => rfl
  | cons c cs ih =>
    obtain ⟨hc, hcs⟩ := List.forall_mem_cons.mp h
    rw [pieces_cons, ih hcs, hc]
    rfl

end TripleStore.Text
