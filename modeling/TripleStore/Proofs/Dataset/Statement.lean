import TripleStore.Proofs.Dataset.Naming
import TripleStore.Proofs.Uri

/-!
# Lines that make statements

The terms of a statement are taken off the front of a line one after the other.
A line can be taken apart in several ways, as what is between brackets may hold
white space, and then the run of characters from a bracket on ends within it.
The way that counts is the first one in which the whole line fits.

A `Token` is a text for which this is the way in which it was written: it ends at
the first bracket that closes, or it opens none and has no white space.  `States`
says that a line is made of such texts, with white space between them, and then
it says what they are read as (`States.readLine_eq`).

The first of them has to be told from what starts any other line.  A comment
starts with a mark of its own, and the keyword of a declaration has none of the
characters that make a text a term.
-/

namespace TripleStore

namespace Dataset.Turtle

variable {line cs rest s p o w : List Char}

/-- White space. -/
def Blanks (w : List Char) : Prop := ∀ c ∈ w, Text.isBlank c = true

instance (w : List Char) : Decidable (Blanks w) := List.decidableBAll _ _

/-- A text that is not empty and has no white space around it. -/
structure Trimmed (cs : List Char) : Prop where
  /-- It is not empty. -/
  ne_nil : cs ≠ []
  /-- It does not start in white space. -/
  head : ∀ c ∈ cs.head?, Text.isBlank c = false
  /-- It does not end in white space. -/
  last : ∀ c ∈ cs.getLast?, Text.isBlank c = false

theorem Trimmed.trim_eq (h : Trimmed cs) : Text.trim cs = cs := Text.trim_eq_self h.head h.last

/-! ## Literals -/

theorem isLiteral_iff : isLiteral cs = true ↔ ∃ body suffix, cs = '"' :: body ++ '"' :: suffix ∧
    ∀ c ∈ suffix, c ≠ '"' ∧ Text.isBlank c = false := by
  constructor
  · intro h
    unfold isLiteral at h
    split at h
    · next ds =>
      split at h
      · next body suffix hsplit =>
        obtain ⟨hquote, rfl⟩ := Text.splitLast_eq_some.mp hsplit
        refine ⟨body, suffix, rfl, fun c hc => ⟨fun heq => hquote (heq ▸ hc), ?_⟩⟩
        simp only [Bool.not_eq_true', List.any_eq_false] at h
        simpa using h c hc
      · cases h
    · cases h
  · rintro ⟨body, suffix, rfl, hsuffix⟩
    have hsplit : Text.splitLast (· == '"') (body ++ '"' :: suffix) = some (body, suffix) :=
      Text.splitLast_eq_some.mpr ⟨fun h => (hsuffix _ h).1 rfl, rfl⟩
    simp only [isLiteral, List.cons_append, hsplit, Bool.not_eq_true', List.any_eq_false]
    intro c hc
    simp [(hsuffix c hc).2]

theorem head?_of_isLiteral (h : isLiteral cs = true) : cs.head? = some '"' := by
  obtain ⟨body, suffix, rfl, -⟩ := isLiteral_iff.mp h
  rfl

theorem trimmed_of_isLiteral (h : isLiteral cs = true) : Trimmed cs := by
  obtain ⟨body, suffix, rfl, hsuffix⟩ := isLiteral_iff.mp h
  refine ⟨by simp, ?_, fun c hc => ?_⟩
  · rintro c ⟨⟩
    decide
  · rw [List.getLast?_append, List.getLast?_cons] at hc
    obtain rfl : suffix.getLast?.getD '"' = c := by simpa using hc
    cases hlast : suffix.getLast? with
    | none => decide
    | some d => exact (hsuffix d (List.mem_of_getLast? hlast)).2

/-! ## Terms of a statement -/

/-- A text that stands as one term in a line: it is between brackets, or it is a run of characters
that opens none. -/
inductive Token : List Char → Prop
  /-- The first bracket that closes is the last character. -/
  | brackets {inner : List Char} (hinner : '>' ∉ inner) : Token ('<' :: inner ++ ['>'])
  /-- There is no white space in it. -/
  | run {cs : List Char} (hne : cs ≠ []) (hrun : ∀ c ∈ cs, Text.isBlank c = false)
    (hopen : cs.head? ≠ some '<') : Token cs

theorem Token.trimmed (h : Token cs) : Trimmed cs := by
  cases h with
  | brackets _ =>
    refine ⟨by simp, ?_, fun c hc => ?_⟩
    · rintro c ⟨⟩
      decide
    · rw [List.getLast?_append] at hc
      obtain rfl : '>' = c := by simpa using hc
      decide
  | run hne hrun _ =>
    exact ⟨hne, fun c hc => hrun c (List.mem_of_mem_head? hc),
      fun c hc => hrun c (List.mem_of_getLast? hc)⟩

/-- The first way to take a term in brackets off the front is to the bracket that closes it. -/
theorem exists_termSplits_brackets {inner : List Char} (h : '>' ∉ inner) (rest : List Char) :
    ∃ others, termSplits ('<' :: inner ++ ['>'] ++ rest) =
      ('<' :: inner ++ ['>'], rest) :: others := by
  have hsplit : bracketed? ('<' :: inner ++ ['>'] ++ rest) = some (inner, rest) := by
    have hcons : '<' :: inner ++ ['>'] ++ rest = '<' :: (inner ++ '>' :: rest) := by simp
    rw [hcons]
    exact Text.splitFirst_eq_some.mpr ⟨h, rfl⟩
  exact ⟨_, by rw [termSplits, hsplit]; rfl⟩

/-- The first way to take a term off the front of a text is up to the white space behind it. -/
theorem Token.exists_termSplits (h : Token cs) (hrest : ∀ c ∈ rest.head?, Text.isBlank c = true) :
    ∃ others, termSplits (cs ++ rest) = (cs, rest) :: others := by
  cases h with
  | brackets hinner => exact exists_termSplits_brackets hinner rest
  | run hne hrun hopen =>
    have hbracket : bracketed? (cs ++ rest) = none := by
      obtain ⟨c, ds, rfl⟩ := List.exists_cons_of_ne_nil hne
      unfold bracketed?
      split
      · next heq => exact absurd (congrArg List.head? heq) (by simpa using hopen)
      · rfl
    have hall : ∀ c ∈ cs, (!Text.isBlank c) = true := fun c hc => by rw [hrun c hc]; rfl
    have hstop : rest.takeWhile (fun c => !Text.isBlank c) = [] ∧
        rest.dropWhile (fun c => !Text.isBlank c) = rest := by
      cases rest with
      | nil => exact ⟨rfl, rfl⟩
      | cons c cs => simp [hrest c rfl]
    refine ⟨[], ?_⟩
    rw [termSplits, hbracket, List.takeWhile_append_of_pos hall, List.dropWhile_append_of_pos hall,
      hstop.1, hstop.2, List.append_nil]
    simp [hne]

theorem afterBlanks?_append (hne : w ≠ []) (hw : Blanks w)
    (hrest : ∀ c ∈ rest.head?, Text.isBlank c = false) : afterBlanks? (w ++ rest) = some rest := by
  obtain ⟨c, cs, rfl⟩ := List.exists_cons_of_ne_nil hne
  rw [List.cons_append, afterBlanks?, if_pos (hw c List.mem_cons_self),
    Text.dropWhile_blanks_append fun c hc => hw c (List.mem_cons_of_mem _ hc),
    Text.dropWhile_eq_self hrest]

theorem Token.exists_leadingTerms (h : Token cs) (hne : w ≠ []) (hw : Blanks w)
    (hrest : ∀ c ∈ rest.head?, Text.isBlank c = false) :
    ∃ others, leadingTerms (cs ++ (w ++ rest)) = (cs, rest) :: others := by
  have hblank : ∀ c ∈ (w ++ rest).head?, Text.isBlank c = true := by
    obtain ⟨d, ds, rfl⟩ := List.exists_cons_of_ne_nil hne
    rintro c ⟨⟩
    exact hw d List.mem_cons_self
  obtain ⟨others, hsplits⟩ := h.exists_termSplits hblank
  exact ⟨_, by
    rw [leadingTerms, hsplits, List.filterMap_cons, afterBlanks?_append hne hw hrest]
    rfl⟩

/-- A text that stands as the object of a statement. -/
def Object (cs : List Char) : Prop := Token cs ∨ isLiteral cs = true

theorem Object.trimmed (h : Object cs) : Trimmed cs := h.elim Token.trimmed trimmed_of_isLiteral

theorem Object.isObject (h : Object cs) : isObject cs = true := by
  rcases h with h | h
  · obtain ⟨others, hsplits⟩ : ∃ others, termSplits (cs ++ []) = (cs, []) :: others :=
      h.exists_termSplits (by simp)
    rw [List.append_nil] at hsplits
    simp [Turtle.isObject, hsplits]
  · rw [Turtle.isObject, h, Bool.true_or]

/-! ## Lines -/

/-- What is taken for a word is that word, in any case. -/
theorem eq_append_of_afterKeyword? {ws : List Char} (h : afterKeyword? ws cs = some rest) :
    ∃ ks, cs = ks ++ rest ∧ ks.map Char.toLower = ws := by
  induction ws generalizing cs with
  | nil =>
    cases h
    exact ⟨[], rfl, rfl⟩
  | cons w ws ih =>
    cases cs with
    | nil => cases h
    | cons c cs =>
      rw [afterKeyword?] at h
      split at h
      · next hc =>
        obtain ⟨ks, rfl, rfl⟩ := ih h
        exact ⟨c :: ks, rfl, by rw [List.map_cons, hc]⟩
      · cases h

/-- What a declaration starts with is the keyword, up to the first white space. -/
theorem mem_keyword_of_declaration? {d : List Char × List Char}
    (hrun : ∀ c ∈ s, Text.isBlank c = false) (h : declaration? (s ++ rest) = some d) :
    ∀ c ∈ s, c = '@' ∨ c.toLower ∈ "prefix".toList := by
  simp only [declaration?, Option.bind_eq_bind, Option.bind_eq_some_iff] at h
  obtain ⟨ds, hkeyword, es, hblank, -⟩ := h
  obtain ⟨ks, hks, hlower⟩ := eq_append_of_afterKeyword? hkeyword
  obtain ⟨mark, hline, hmark⟩ : ∃ as, s ++ rest = as ++ ks ++ ds ∧ ∀ c ∈ as, c = '@' := by
    split at hks
    · next hhead =>
      obtain ⟨cs, hcs⟩ := List.head?_eq_some_iff.1 hhead
      rw [hcs, List.drop_succ_cons, List.drop_zero] at hks
      exact ⟨['@'], by rw [hcs, hks]; rfl, by simp⟩
    · exact ⟨[], hks, by simp⟩
  have hmem : ∀ c ∈ mark ++ ks, c = '@' ∨ c.toLower ∈ "prefix".toList := by
    intro c hc
    refine (List.mem_append.1 hc).imp (hmark c) fun hc => ?_
    rw [← hlower]
    exact List.mem_map_of_mem hc
  rcases List.append_eq_append_iff.1 hline with ⟨t, ht, -⟩ | ⟨t, rfl, ht⟩
  · exact fun c hc => hmem c (ht ▸ List.mem_append_left _ hc)
  · -- the white space behind the keyword is not in the term
    cases t with
    | nil => rwa [List.append_nil]
    | cons c t =>
      rw [ht, List.cons_append, afterBlanks?, if_neg (by simp [hrun c (by simp)])] at hblank
      cases hblank

/-- The first term of a line that is neither a comment nor a declaration. -/
structure Subject (s : List Char) : Prop where
  /-- It is one term. -/
  token : Token s
  /-- The line is no comment. -/
  comment : s.head? ≠ some '#'
  /-- It is written as a term, which the keyword of a declaration is not. -/
  term : WrittenInFull s ∨ ':' ∈ s

theorem Subject.declaration?_eq (h : Subject s) (rest : List Char) :
    declaration? (s ++ rest) = none := by
  cases htoken : h.token with
  | brackets _ => rfl
  | run _ hrun hopen =>
    refine Option.eq_none_iff_forall_ne_some.2 fun d hd => ?_
    have hkeyword := mem_keyword_of_declaration? hrun hd
    have hcolon : ':' ∉ s := fun hc => absurd (hkeyword _ hc) (by decide)
    rcases h.term with (hhead | hhead | rfl | hscheme) | hc
    · exact hopen hhead
    · exact absurd (hkeyword _ (List.mem_of_mem_head? hhead)) (by decide)
    · exact absurd (hkeyword 'a' (by simp)) (by decide)
    · exact hcolon ((Text.occursIn_iff_isInfix.1 hscheme).subset (by decide))
    · exact hcolon hc

/-- A line that makes a statement of three texts. -/
inductive States : List Char → List Char → List Char → List Char → Prop
  /-- There is white space between the terms, and there may be more of it anywhere else. -/
  | spaced {w₀ s w₁ p w₂ o w₃ w₄ : List Char} (hs : Subject s) (hp : Token p) (ho : Object o)
    (hne : w₁ ≠ [] ∧ w₂ ≠ []) (hw : Blanks (w₀ ++ w₁ ++ w₂ ++ w₃ ++ w₄)) :
    States (w₀ ++ (s ++ (w₁ ++ (p ++ (w₂ ++ o))) ++ w₃ ++ ['.']) ++ w₄) s p o

section

variable {w₁ w₂ w₃ : List Char}

/-- A line is taken apart where it was put together. -/
theorem terms?_eq (hs : Token s) (hp : Token p) (ho : Object o) (hne : w₁ ≠ [] ∧ w₂ ≠ [])
    (hw₁ : Blanks w₁) (hw₂ : Blanks w₂) :
    terms? (s ++ (w₁ ++ (p ++ (w₂ ++ o)))) = some (s, p, o) := by
  have hhead : ∀ c ∈ (p ++ (w₂ ++ o)).head?, Text.isBlank c = false := by
    rw [List.head?_append_of_ne_nil p hp.trimmed.ne_nil]
    exact hp.trimmed.head
  obtain ⟨others, hsubject⟩ := hs.exists_leadingTerms hne.1 hw₁ hhead
  obtain ⟨others', hpredicate⟩ := hp.exists_leadingTerms hne.2 hw₂ ho.trimmed.head
  rw [terms?, hsubject, List.findSome?_cons, hpredicate, List.findSome?_cons, ho.isObject]
  rfl

theorem statement?_eq (hs : Token s) (hp : Token p) (ho : Object o) (hne : w₁ ≠ [] ∧ w₂ ≠ [])
    (hw₁ : Blanks w₁) (hw₂ : Blanks w₂) (hw₃ : Blanks w₃) :
    statement? (s ++ (w₁ ++ (p ++ (w₂ ++ o))) ++ w₃ ++ ['.']) = some (s, p, o) := by
  have hlast : (s ++ (w₁ ++ (p ++ (w₂ ++ o)))).getLast? = o.getLast? := by
    rw [← List.append_assoc, ← List.append_assoc, ← List.append_assoc,
      List.getLast?_append_of_ne_nil _ ho.trimmed.ne_nil]
  rw [statement?, if_pos List.getLast?_concat, List.dropLast_concat,
    Text.trimEnd_append_blanks hw₃, Text.trimEnd_eq_self (hlast ▸ ho.trimmed.last),
    terms?_eq hs hp ho hne hw₁ hw₂]

end

/-- What a line says whose terms are read with this outcome. -/
def Line.ofTriple : Except Fault Triple → Line
  | .ok t => .statement t
  | .error cause => .skipped (.badTerm cause)

/-- A line with a statement says what its terms are read as. -/
theorem States.readLine_eq (h : States line s p o) (declared : Namespaces) :
    readLine declared (Text.trim line) = Line.ofTriple (readTriple declared s p o) := by
  cases h with
  | @spaced w₀ s w₁ p w₂ o w₃ w₄ hs hp ho hne hw =>
    simp only [Blanks, List.forall_mem_append] at hw
    obtain ⟨⟨⟨⟨hw₀, hw₁⟩, hw₂⟩, hw₃⟩, hw₄⟩ := hw
    have hassoc : s ++ (w₁ ++ (p ++ (w₂ ++ o))) ++ w₃ ++ ['.'] =
        s ++ (w₁ ++ (p ++ (w₂ ++ o)) ++ w₃ ++ ['.']) := by simp
    have hhead : (s ++ (w₁ ++ (p ++ (w₂ ++ o))) ++ w₃ ++ ['.']).head? = s.head? := by
      rw [hassoc, List.head?_append_of_ne_nil s hs.token.trimmed.ne_nil]
    have htrim : Text.trim (w₀ ++ (s ++ (w₁ ++ (p ++ (w₂ ++ o))) ++ w₃ ++ ['.']) ++ w₄) =
        s ++ (w₁ ++ (p ++ (w₂ ++ o))) ++ w₃ ++ ['.'] := by
      refine Text.trim_blanks_append hw₀ hw₄ (hhead ▸ hs.token.trimmed.head) ?_ (by simp)
      intro c hc
      obtain rfl : '.' = c := by simpa using hc
      decide
    have hskip : ¬ ((s ++ (w₁ ++ (p ++ (w₂ ++ o))) ++ w₃ ++ ['.']).isEmpty ||
        decide ((s ++ (w₁ ++ (p ++ (w₂ ++ o))) ++ w₃ ++ ['.']).head? = some '#')) = true := by
      rw [hhead]
      simp [hs.comment]
    have hdeclares : declaration? (s ++ (w₁ ++ (p ++ (w₂ ++ o))) ++ w₃ ++ ['.']) = none := by
      rw [hassoc, hs.declaration?_eq]
    rw [htrim, readLine, if_neg hskip, hdeclares,
      statement?_eq hs.token hp ho hne hw₁ hw₂ hw₃]
    cases h : readTriple declared s p o with
    | ok t => simp only [h, Line.ofTriple]
    | error cause => simp only [h, Line.ofTriple]

end Dataset.Turtle

end TripleStore
