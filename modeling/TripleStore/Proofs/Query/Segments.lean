import Mathlib.Data.List.Infix
import TripleStore.Query.Pattern

/-!
# How paths are cut

A path is cut at some of its slashes.  Whether a slash is a cut depends on the
piece before it and on the character after it (`isCut`), and after a cut the rest
is cut as a path of its own.

So texts with slashes between them are cut into those texts if each of them is,
by itself, one segment (`IsSegment`), and each but the last is ended by a slash
behind it (`EndsAtSlash`).
-/

namespace TripleStore.PathStep

/-- A character is a cut, after a piece and before the character that is next. -/
def isCut (bracketed bare : Bool) (piece : List Char) (c : Char) (next : Option Char) : Bool :=
  c = '/' && !bracketed &&
    if bare then piece.contains '#' else !(piece.head? = some ':' && next = some '/')

/-- Whether brackets are open after a character. -/
def bracketedAfter (bracketed : Bool) (c : Char) : Bool :=
  if c = '<' then true else if c = '>' then false else bracketed

/-- A text is cut at its first character, or that character goes to the piece. -/
theorem pieces_cons (bracketed bare : Bool) (piece : List Char) (c : Char) (cs : List Char) :
    pieces bracketed bare piece (c :: cs) =
      if isCut bracketed bare piece c cs.head? then piece.reverse :: segments cs
      else pieces (bracketedAfter bracketed c) (bare || c = '/' && !bracketed) (c :: piece) cs := by
  rw [pieces, isCut, bracketedAfter, segments]
  by_cases hopen : c = '<'
  · simp [hopen]
  by_cases hclose : c = '>'
  · simp [hclose]
  by_cases hslash : c = '/'
  · by_cases hscheme : piece.head? = some ':' ∧ cs.head? = some '/'
    · cases bracketed <;> cases bare <;> simp [hslash, hscheme]
    · cases bracketed <;> cases bare <;> simp [hslash, hscheme, not_and_or.1 hscheme]
  · simp [hopen, hclose, hslash]

theorem pieces_ne_nil (bracketed bare : Bool) (piece cs : List Char) :
    pieces bracketed bare piece cs ≠ [] := by
  induction cs generalizing bracketed bare piece with
  | nil => simp [pieces]
  | cons c cs ih =>
    rw [pieces_cons]
    split
    · simp
    · exact ih _ _ _

/-- A text is its pieces with slashes between them. -/
theorem intercalate_pieces (bracketed bare : Bool) (piece cs : List Char) :
    ['/'].intercalate (pieces bracketed bare piece cs) = piece.reverse ++ cs := by
  induction cs generalizing bracketed bare piece with
  | nil => simp [pieces]
  | cons c cs ih =>
    rw [pieces_cons]
    split
    · next hcut =>
      have hc : c = '/' := by
        simp only [isCut, Bool.and_eq_true, decide_eq_true_iff] at hcut
        exact hcut.1.1
      rw [segments, List.intercalate_cons_of_ne_nil (pieces_ne_nil _ _ _ _), ih, hc]
      simp
    · rw [ih]
      simp

/-- The first piece goes on from what was read. -/
theorem isPrefix_of_pieces {bracketed bare : Bool} {piece cs p : List Char} {ps : List (List Char)}
    (h : pieces bracketed bare piece cs = p :: ps) : piece.reverse <+: p := by
  induction cs generalizing bracketed bare piece with
  | nil =>
    cases h
    exact List.prefix_refl _
  | cons c cs ih =>
    rw [pieces_cons] at h
    split at h
    · cases h
      exact List.prefix_refl _
    · have := ih h
      rw [List.reverse_cons] at this
      exact (List.prefix_append _ _).trans this

/-! ## Texts that are cut where they end -/

/-- A text is one segment. -/
def IsSegment (cs : List Char) : Prop := segments cs = [cs]

/-- A text is cut at a slash behind it, and at none before that. -/
def EndsAtSlash (cs : List Char) : Prop := segments (cs ++ ['/']) = [cs, []]

instance (cs : List Char) : Decidable (IsSegment cs) := inferInstanceAs (Decidable (_ = _))

instance (cs : List Char) : Decidable (EndsAtSlash cs) := inferInstanceAs (Decidable (_ = _))

variable {bracketed bare : Bool} {piece cs rest : List Char} {ps : List (List Char)}

theorem not_isPrefix_of_longer {c : Char} : ¬ (c :: piece).reverse <+: piece.reverse := fun h => by
  have := h.length_le
  rw [List.length_reverse, List.length_reverse, List.length_cons] at this
  omega

/-- A character that goes to the piece is no longer ahead. -/
theorem reverse_cons_append (c : Char) : (c :: piece).reverse ++ cs = piece.reverse ++ c :: cs := by
  simp

/-- The next character does not depend on what stands behind a slash. -/
theorem head?_append_slash : (cs ++ '/' :: rest).head? = (cs ++ ['/']).head? := by
  cases cs <;> rfl

/-- What stands behind the slash that ends the first piece is cut by itself, and the piece ends
there also if nothing does. -/
theorem pieces_of_append
    (h : pieces bracketed bare piece (cs ++ '/' :: rest) = (piece.reverse ++ cs) :: ps) :
    pieces bracketed bare piece (cs ++ ['/']) = [piece.reverse ++ cs, []] ∧ ps = segments rest := by
  induction cs generalizing bracketed bare piece with
  | nil =>
    rw [List.append_nil] at h ⊢
    rw [List.nil_append, pieces_cons] at h ⊢
    split at h
    · next hcut =>
      have hend : isCut bracketed bare piece '/' none = true := by
        cases bare <;> simp_all [isCut]
      rw [List.head?_nil, if_pos hend]
      exact ⟨rfl, (List.cons.inj h).2.symm⟩
    · exact absurd (isPrefix_of_pieces h) not_isPrefix_of_longer
  | cons c cs ih =>
    rw [List.cons_append, pieces_cons] at h ⊢
    rw [head?_append_slash] at h
    split at h
    · simpa using (List.cons.inj h).1
    · next hcut =>
      rw [← reverse_cons_append] at h ⊢
      rw [if_neg hcut]
      exact ih h

/-- A piece that is ended by a slash is ended also if something else stands behind it, unless that
is another slash. -/
theorem pieces_append (hrest : rest.head? ≠ some '/')
    (h : pieces bracketed bare piece (cs ++ ['/']) = [piece.reverse ++ cs, []]) :
    pieces bracketed bare piece (cs ++ '/' :: rest) = (piece.reverse ++ cs) :: segments rest := by
  induction cs generalizing bracketed bare piece with
  | nil =>
    rw [List.append_nil] at h ⊢
    rw [List.nil_append, pieces_cons] at h ⊢
    split at h
    · next hcut =>
      have hend : isCut bracketed bare piece '/' rest.head? = true := by
        cases bare <;> simp_all [isCut]
      rw [if_pos hend]
    · exact absurd (isPrefix_of_pieces h) not_isPrefix_of_longer
  | cons c cs ih =>
    rw [List.cons_append, pieces_cons] at h ⊢
    rw [head?_append_slash]
    split at h
    · simpa using (List.cons.inj h).1
    · next hcut =>
      rw [← reverse_cons_append] at h ⊢
      rw [if_neg hcut]
      exact ih h

/-- A text that starts with a slash has an empty first piece. -/
theorem segments_slash (cs : List Char) : segments ('/' :: cs) = [] :: segments cs := by
  rw [segments, pieces_cons]
  rfl

/-- Texts with slashes between them are cut into those texts exactly if each is a segment that ends
where it should. -/
theorem segments_intercalate_iff {t : List Char} {ts : List (List Char)}
    (hne : ∀ u ∈ t :: ts, u ≠ []) : segments (['/'].intercalate (t :: ts)) = t :: ts ↔
      (∀ u ∈ (t :: ts).dropLast, EndsAtSlash u) ∧ ∀ u ∈ (t :: ts).getLast?, IsSegment u := by
  induction ts generalizing t with
  | nil => simp [IsSegment]
  | cons u us ih =>
    obtain ⟨-, hne⟩ := List.forall_mem_cons.1 hne
    rw [List.dropLast_cons_cons, List.forall_mem_cons, List.getLast?_cons_cons, and_assoc, ← ih hne,
      List.intercalate_cons_cons, List.append_assoc, List.singleton_append]
    constructor
    · intro h
      obtain ⟨hend, hrest⟩ := pieces_of_append h
      exact ⟨hend, hrest.symm⟩
    · rintro ⟨hend, hrest⟩
      have hslash : (['/'].intercalate (u :: us)).head? ≠ some '/' := by
        intro h
        obtain ⟨cs, hcs⟩ := List.head?_eq_some_iff.1 h
        rw [hcs, segments_slash] at hrest
        exact hne u List.mem_cons_self (List.cons.inj hrest).1.symm
      exact (pieces_append hslash hend).trans (congrArg _ hrest)

/-! ## Texts that are segments -/

/-- Nothing between brackets is a cut. -/
theorem pieces_inside (hclose : '>' ∉ cs) (rest : List Char) :
    pieces true bare piece (cs ++ rest) = pieces true bare (cs.reverse ++ piece) rest := by
  induction cs generalizing piece with
  | nil => rfl
  | cons c cs ih =>
    obtain ⟨hc, hclose⟩ := not_or.1 (mt List.mem_cons.2 hclose)
    have hcut : isCut true bare piece c (cs ++ rest).head? = false := by simp [isCut]
    have hopen : bracketedAfter true c = true := by simp [bracketedAfter, Ne.symm hc]
    have hbare : (bare || c = '/' && !true) = bare := by simp
    rw [List.cons_append, pieces_cons, hcut, if_neg Bool.false_ne_true, hopen, hbare, ih hclose]
    simp

/-- A text without slashes and brackets goes to the piece. -/
theorem pieces_outside (h : ∀ c ∈ cs, c ≠ '/' ∧ c ≠ '<' ∧ c ≠ '>') (rest : List Char) :
    pieces bracketed bare piece (cs ++ rest) =
      pieces bracketed bare (cs.reverse ++ piece) rest := by
  induction cs generalizing piece with
  | nil => rfl
  | cons c cs ih =>
    obtain ⟨⟨hslash, hopen, hclose⟩, h⟩ := List.forall_mem_cons.1 h
    have hcut : isCut bracketed bare piece c (cs ++ rest).head? = false := by
      simp [isCut, hslash]
    have hsame : bracketedAfter bracketed c = bracketed := by
      simp [bracketedAfter, hopen, hclose]
    have hbare : (bare || c = '/' && !bracketed) = bare := by simp [hslash]
    rw [List.cons_append, pieces_cons, hcut, if_neg Bool.false_ne_true, hsame, hbare, ih h]
    simp

/-- A text that goes to the piece as a whole is a segment that ends at a slash, unless it is within
a full term whose `#` is still to come. -/
theorem endsAtSlash_of_pieces (hbare : bare = true → '#' ∈ cs)
    (h : ∀ rest, segments (cs ++ rest) = pieces false bare cs.reverse rest) :
    EndsAtSlash cs ∧ IsSegment cs := by
  constructor
  · rw [EndsAtSlash, h, pieces_cons]
    cases bare with
    | false => simp [isCut, segments, pieces]
    | true => simp [isCut, segments, pieces, hbare rfl]
  · rw [IsSegment, ← List.append_nil cs, h]
    simp [pieces]

/-- A term between brackets is one segment, with the mark behind it, whatever slashes it has. -/
theorem endsAtSlash_of_brackets {inner mark : List Char} (hclose : '>' ∉ inner)
    (hmark : ∀ c ∈ mark, c ≠ '/' ∧ c ≠ '<' ∧ c ≠ '>') :
    EndsAtSlash ('<' :: inner ++ '>' :: mark) ∧ IsSegment ('<' :: inner ++ '>' :: mark) := by
  refine endsAtSlash_of_pieces (fun h => absurd h Bool.false_ne_true) fun rest => ?_
  have htext : '<' :: inner ++ '>' :: mark ++ rest = '<' :: (inner ++ '>' :: (mark ++ rest)) := by
    simp
  have hopened : pieces false false [] ('<' :: (inner ++ '>' :: (mark ++ rest))) =
      pieces true false ['<'] (inner ++ '>' :: (mark ++ rest)) := pieces_cons false false [] '<' _
  have hclosed (piece : List Char) : pieces true false piece ('>' :: (mark ++ rest)) =
      pieces false false ('>' :: piece) (mark ++ rest) := pieces_cons true false piece '>' _
  rw [htext, segments, hopened, pieces_inside hclose, hclosed, pieces_outside hmark]
  simp

/-- A text without slashes and brackets is one segment. -/
theorem endsAtSlash_of_plain (h : ∀ c ∈ cs, c ≠ '/' ∧ c ≠ '<' ∧ c ≠ '>') :
    EndsAtSlash cs ∧ IsSegment cs := by
  refine endsAtSlash_of_pieces (fun h => absurd h Bool.false_ne_true) fun rest => ?_
  rw [segments, pieces_outside h, List.append_nil]

end TripleStore.PathStep
