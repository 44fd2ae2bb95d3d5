import TripleStore.Proofs.Dataset.Statement

/-!
# Statements written one to a line

A statement is written as a line of its own.  Its terms stand between brackets,
but a literal stands as it is, and a full stop ends the line.  What is written in
this way is read as the same statements in the same order.  No prefix is declared
by it and no line is skipped.

A term has no bracket inside that closes, so it stands as one term between its
brackets, whatever else it holds.  A literal may hold whatever a line may, as it
is the last term (`Writable.states`).

`Spells` is what a text has to be to stand for a term in a line.
-/

namespace TripleStore

namespace Dataset.Turtle

variable {u : Uri} {cs : List Char} {t : Triple} {ts : List Triple}

/-! ## What can be written -/

/-- A term that can be written between brackets: it is split where it is joined, and neither the
bracket nor the line ends within it. -/
def Plain (u : Uri) : Prop :=
  '#' ∉ u.value.toList ∧ ∀ c ∈ u.ns.toList ++ u.value.toList, c ≠ '>' ∧ c ≠ '\n'

instance (u : Uri) : Decidable (Plain u) :=
  have : Decidable (∀ c ∈ u.ns.toList ++ u.value.toList, c ≠ '>' ∧ c ≠ '\n') :=
    List.decidableBAll _ _
  inferInstanceAs (Decidable (_ ∧ _))

/-- A literal: a text of one line between quotes, and then what says its type or its language. -/
structure Quoted (u : Uri) : Prop where
  /-- It has no namespace. -/
  ns : u.ns = ""
  /-- The text may hold quotes, and what comes after it does not. -/
  value : ∃ body suffix, u.value.toList = '"' :: body ++ '"' :: suffix ∧ '\n' ∉ body ∧
    ∀ c ∈ suffix, c ≠ '"' ∧ Text.isBlank c = false

theorem quoted_iff : Quoted u ↔
    u.ns = "" ∧ isLiteral u.value.toList = true ∧ '\n' ∉ u.value.toList := by
  rw [isLiteral_iff]
  constructor
  · rintro ⟨hns, body, suffix, hvalue, hbody, hsuffix⟩
    refine ⟨hns, ⟨body, suffix, hvalue, hsuffix⟩, ?_⟩
    have hline : '\n' ∉ suffix := fun h => absurd (hsuffix _ h).2 (by decide)
    simp [hvalue, hbody, hline]
  · rintro ⟨hns, ⟨body, suffix, hvalue, hsuffix⟩, hline⟩
    refine ⟨hns, body, suffix, hvalue, fun h => hline ?_, hsuffix⟩
    simp [hvalue, h]

instance (u : Uri) : Decidable (Quoted u) := decidable_of_iff' _ quoted_iff

/-- A statement that can be written. -/
structure Writable (t : Triple) : Prop where
  /-- The subject goes between brackets. -/
  subject : Plain t.subject
  /-- The predicate goes between brackets. -/
  predicate : Plain t.predicate
  /-- The object goes between brackets, or it is a literal. -/
  object : Plain t.object ∨ Quoted t.object

/-! ## Writing -/

/-- A term between brackets. -/
def spelling (u : Uri) : List Char := '<' :: u.hashInput.toList ++ ['>']

/-- The object of a statement as it is written. -/
def objectSpelling (u : Uri) : List Char := if Quoted u then u.value.toList else spelling u

/-- The terms of a statement as they are written. -/
def termsSpelling (t : Triple) : List Char :=
  spelling t.subject ++ ' ' :: (spelling t.predicate ++ ' ' :: objectSpelling t.object)

/-- The line of a statement. -/
def lineOf (t : Triple) : List Char := termsSpelling t ++ [' ', '.']

/-- A text with a line for each statement. -/
def write (ts : List Triple) : String := String.ofList (ts.flatMap fun t => lineOf t ++ ['\n'])

/-! ## Terms -/

/-- A text stands for a term in a line. -/
structure Spells (cs : List Char) (u : Uri) : Prop where
  /-- It is read as the term, whatever the prefixes are. -/
  read : ∀ declared, readTerm declared cs = .ok u
  /-- It is not empty. -/
  ne_nil : cs ≠ []
  /-- It does not start in white space. -/
  head : ∀ c ∈ cs.head?, Text.isBlank c = false
  /-- It does not end in white space. -/
  last : ∀ c ∈ cs.getLast?, Text.isBlank c = false
  /-- The line does not end in it. -/
  line : '\n' ∉ cs

theorem toList_hashInput (u : Uri) : u.hashInput.toList =
    if u.ns = "" then u.value.toList else u.ns.toList ++ '#' :: u.value.toList := by
  by_cases hns : u.ns = ""
  · simp [Uri.hashInput, hns]
  · simp [Uri.hashInput, hns]

namespace Plain

theorem ne_of_mem (h : Plain u) {c : Char} (hc : c ∈ u.hashInput.toList) : c ≠ '>' ∧ c ≠ '\n' := by
  rw [toList_hashInput] at hc
  split at hc
  · exact h.2 c (List.mem_append_right _ hc)
  · rcases List.mem_append.mp hc with hc | hc
    · exact h.2 c (List.mem_append_left _ hc)
    · rcases List.mem_cons.mp hc with rfl | hc
      · decide
      · exact h.2 c (List.mem_append_right _ hc)

theorem ofFull_hashInput (h : Plain u) : Uri.ofFull u.hashInput.toList = u := by
  refine Uri.ofFull_eq_iff.mpr ⟨h.1, ?_⟩
  rw [toList_hashInput]
  split
  · next hns => exact .inr ⟨hns, rfl⟩
  · exact .inl rfl

theorem token (h : Plain u) : Token (spelling u) := .brackets fun hc => (h.ne_of_mem hc).1 rfl

theorem spells (h : Plain u) : Spells (spelling u) u := by
  have htrim := h.token.trimmed
  refine ⟨fun declared => ?_, htrim.ne_nil, htrim.head, htrim.last, fun hline => ?_⟩
  · rw [readTerm_of_full (.inl rfl), spelling, Uri.ofTerm_brackets, h.ofFull_hashInput]
  · have hinner : '\n' ∈ u.hashInput.toList := by simpa [spelling] using hline
    exact (h.ne_of_mem hinner).2 rfl

end Plain

theorem Quoted.spells (h : Quoted u) : Spells u.value.toList u := by
  obtain ⟨hns, hliteral, hline⟩ := quoted_iff.mp h
  have hhead := head?_of_isLiteral hliteral
  have htrim := trimmed_of_isLiteral hliteral
  refine ⟨fun declared => ?_, htrim.ne_nil, htrim.head, htrim.last, hline⟩
  rw [readTerm_of_full (.inr (.inl hhead)), Uri.ofTerm, String.toList_ofList, htrim.trim_eq,
    Uri.ofChars_of_marked (.inr hhead)]
  exact congrArg Except.ok (Uri.ext hns.symm String.ofList_toList)

namespace Writable

theorem spells_object (h : Writable t) : Spells (objectSpelling t.object) t.object := by
  rw [objectSpelling]
  split
  · next hq => exact hq.spells
  · next hq => exact (h.object.resolve_right hq).spells

theorem object_objectSpelling (h : Writable t) : Object (objectSpelling t.object) := by
  rw [objectSpelling]
  split
  · next hq => exact .inr (quoted_iff.mp hq).2.1
  · next hq => exact .inl (h.object.resolve_right hq).token

/-! ## Lines -/

/-- A line makes the statement of what its terms are written as. -/
theorem states (h : Writable t) : States (lineOf t) (spelling t.subject) (spelling t.predicate)
    (objectSpelling t.object) := by
  have hline : lineOf t = [] ++ (spelling t.subject ++ ([' '] ++ (spelling t.predicate ++
      ([' '] ++ objectSpelling t.object))) ++ [' '] ++ ['.']) ++ [] := by
    simp [lineOf, termsSpelling]
  have hsubject : Subject (spelling t.subject) :=
    ⟨h.subject.token, by simp [spelling], .inl (.inl rfl)⟩
  rw [hline]
  exact .spaced hsubject h.predicate.token h.object_objectSpelling (by simp) (by decide)

theorem readTriple_eq (h : Writable t) (declared : Namespaces) :
    readTriple declared (spelling t.subject) (spelling t.predicate) (objectSpelling t.object) =
      .ok t := by
  rw [readTriple, h.subject.spells.read, h.predicate.spells.read, h.spells_object.read]
  rfl

/-- The line of a statement says that it holds, whatever prefixes are declared. -/
theorem readLine_eq (h : Writable t) (declared : Namespaces) :
    readLine declared (Text.trim (lineOf t)) = .statement t := by
  rw [h.states.readLine_eq, h.readTriple_eq]
  rfl

theorem line (h : Writable t) : '\n' ∉ lineOf t := by
  have hs := h.subject.spells.line
  have hp := h.predicate.spells.line
  have ho := h.spells_object.line
  simp [lineOf, termsSpelling, hs, hp, ho]

end Writable

/-! ## Texts -/

/-- The lines of a text that was written are those of the statements, and an empty one. -/
theorem lines_write (h : ∀ t ∈ ts, Writable t) :
    Text.lines (write ts).toList = ts.map lineOf ++ [[]] := by
  rw [write, String.toList_ofList]
  induction ts with
  | nil => rfl
  | cons t ts ih =>
    obtain ⟨ht, hts⟩ := List.forall_mem_cons.mp h
    have hone : Text.pieces (· == '\n') (lineOf t) = [lineOf t] := by
      refine Text.pieces_eq_singleton fun c hc => ?_
      rw [beq_eq_false_iff_ne]
      exact fun heq => ht.line (heq ▸ hc)
    have ih : Text.pieces (· == '\n') (ts.flatMap fun t => lineOf t ++ ['\n']) =
        ts.map lineOf ++ [[]] := ih hts
    rw [Text.lines, List.flatMap_cons, List.append_assoc, List.singleton_append,
      Text.pieces_append (by rfl), hone, ih]
    rfl

/-- The lines of statements add these to what was read, and nothing else. -/
theorem addAll_lines (h : ∀ t ∈ ts, Writable t) (p : Progress) (n : Nat) :
    p.addAll n (ts.map lineOf ++ [[]]) = { p with triples := ts.reverse ++ p.triples } := by
  induction ts generalizing p n with
  | nil => rfl
  | cons t ts ih =>
    obtain ⟨ht, hts⟩ := List.forall_mem_cons.mp h
    rw [List.map_cons, List.cons_append, Progress.addAll, ih hts, Progress.add,
      ht.readLine_eq, List.reverse_cons, List.append_assoc]
    rfl

/-- Statements that are written one to a line are read back, in their order and with nothing
else. -/
theorem read_write (h : ∀ t ∈ ts, Writable t) : read (write ts) = (⟨ts, ∅⟩, []) := by
  rw [read, lines_write h, addAll_lines h, List.append_nil, List.reverse_reverse]
  rfl

/-- A term with white space, quotes and brackets in it, and a literal with a full stop, a term
and a comment in it. -/
def awkward : List Triple :=
  [⟨⟨"urn:a <b", "c d ."⟩, ⟨"", "\"p"⟩, ⟨"", "\"x\" <y> . # \"z\"^^<t>"⟩⟩,
    ⟨⟨"h#i", ""⟩, ⟨"", ""⟩, ⟨"http://e/b", "\"o\""⟩⟩]

theorem read_write_awkward :
    (∀ t ∈ awkward, Writable t) ∧ read (write awkward) = (⟨awkward, ∅⟩, []) := by
  have h : ∀ t ∈ awkward, Writable t := by
    have hplain : ∀ t ∈ awkward, Plain t.subject ∧ Plain t.predicate ∧
        (Plain t.object ∨ Quoted t.object) := by decide
    exact fun t ht => ⟨(hplain t ht).1, (hplain t ht).2.1, (hplain t ht).2.2⟩
  exact ⟨h, read_write h⟩

end Dataset.Turtle

end TripleStore
