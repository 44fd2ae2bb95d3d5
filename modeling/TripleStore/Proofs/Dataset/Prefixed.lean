import Mathlib.Data.Bool.AllAny
import Mathlib.Data.List.Infix
import TripleStore.Proofs.Dataset.Statement

/-!
# Names under a prefix and in full

A name under a prefix can also be written in full, with the declared namespace in
place of the prefix and its colon.  The two spellings are read by different
rules.  The namespace is kept without the `#` it ends in, and goes before the
local name.  A name in full is split at its last `#`, which is the one the
namespace ends in, as a local name has none.

So a file says the same in either spelling, for a namespace that ends in `#` and
as long as the prefix is not declared anew (`read_respelled`).  This is shown line
by line.  Each line leaves the namespace in force, and as it is in force the two
spellings of a line are read alike.

The colon of a prefix may make a scheme with what stands behind it.  Then the text
is a term in full, and `p://x` is no name under `p`.
-/

namespace TripleStore

namespace Dataset.Turtle

variable {declared : Namespaces} {name ns l cs line line' s s' p p' o o' : List Char}
variable {ls ls' : List (List Char)} {q : Progress} {n : Nat} {t : Triple}

/-! ## Declarations -/

/-- No white space stands between the digits and the lower case letters. -/
theorem isBlank_of_isAlphanum {c : Char} (h : c.isAlphanum = true) : Text.isBlank c = false := by
  have hrange : 48 ≤ c.toNat ∧ c.toNat ≤ 122 := by
    change (decide ('A'.val ≤ c.val ∧ c.val ≤ 'Z'.val) || ('a'.val ≤ c.val && c.val ≤ 'z'.val) ||
      ('0'.val ≤ c.val && c.val ≤ '9'.val)) = true at h
    simp only [Bool.or_eq_true, Bool.and_eq_true, decide_eq_true_eq, UInt32.le_iff_toNat_le,
      Char.reduceVal, UInt32.reduceToNat] at h
    change _ ≤ c.val.toNat ∧ c.val.toNat ≤ _
    omega
  have hapart : ∀ r ∈ Text.blankRanges, r.2 < 48 ∨ 122 < r.1 := by decide
  refine List.any_eq_false.2 fun r hr => ?_
  have hr := hapart r hr
  simp only [Bool.and_eq_true, decide_eq_true_eq]
  omega

theorem isNameChar_spec {c : Char} (h : isNameChar c = true) :
    Text.isBlank c = false ∧ c ≠ ':' ∧ c ≠ '<' ∧ c ≠ '"' ∧ c ≠ '?' ∧ c ≠ '#' := by
  have hne : ∀ d, isNameChar d = false → c ≠ d := by
    rintro d hd rfl
    rw [h] at hd
    cases hd
  refine ⟨?_, hne _ (by decide), hne _ (by decide), hne _ (by decide), hne _ (by decide),
    hne _ (by decide)⟩
  simp only [isNameChar, Bool.or_eq_true, decide_eq_true_eq, or_assoc] at h
  rcases h with h | rfl | rfl | rfl | rfl | rfl
  · exact isBlank_of_isAlphanum h
  all_goals decide

/-- A prefix is made of the characters of names, and its namespace ends at the first bracket. -/
theorem declaration?_spec (h : declaration? line = some (name, ns)) :
    (∀ c ∈ name, isNameChar c = true) ∧ '>' ∉ ns := by
  simp only [declaration?, Option.bind_eq_bind, Option.bind_eq_some_iff] at h
  obtain ⟨cs, -, ds, -, h⟩ := h
  split at h
  · next es =>
    simp only [Option.bind_eq_some_iff] at h
    obtain ⟨⟨inner, rest⟩, hb, h⟩ := h
    split at h
    · cases h
      refine ⟨fun c hc => List.all_eq_true.1 List.all_takeWhile c hc, ?_⟩
      unfold bracketed? at hb
      split at hb
      · exact (Text.splitFirst_eq_some.1 hb).1
      · cases hb
    · cases h
  · cases h

/-- Only a declaration is read as one, and it is read whatever was declared before. -/
theorem readLine_eq_declaration {a b : String} : readLine declared cs = .declaration a b ↔
    ∃ name ns, declaration? cs = some (name, ns) ∧ a = String.ofList name ∧
      b = String.ofList ns := by
  constructor
  · intro h
    unfold readLine at h
    split at h
    · cases h
    · split at h
      · next name ns hd =>
        cases h
        exact ⟨name, ns, hd, rfl, rfl⟩
      · split at h
        · cases h
        · split at h <;> cases h
  · rintro ⟨name, ns, hd, rfl, rfl⟩
    have hskip : (cs.isEmpty || decide (cs.head? = some '#')) = false := by
      match cs, hd with
      | c :: cs, hd =>
        have hc : c ≠ '#' := by
          rintro rfl
          cases hd
        simp [hc]
    rw [readLine, if_neg (by rw [hskip]; exact Bool.false_ne_true), hd]

/-! ## Names -/

/-- A name under a prefix, as it is written. -/
def prefixed (name l : List Char) : List Char := name ++ ':' :: l

/-- A name in full, as it is written. -/
def full (ns l : List Char) : List Char := '<' :: (ns ++ l) ++ ['>']

/-- The term that a name stands for under a declared namespace. -/
def named (ns l : List Char) : Uri := ⟨String.ofList (trimNamespace ns), String.ofList l⟩

/-- A local name. -/
structure IsLocal (l : List Char) : Prop where
  /-- It ends neither at white space nor at a bracket, and the namespace ends before it. -/
  chars : ∀ c ∈ l, Text.isBlank c = false ∧ c ≠ '#' ∧ c ≠ '>'
  /-- It has no scheme. -/
  scheme : ¬ Uri.schemeMark <:+: l
  /-- The colon before it makes no scheme. -/
  slashes : ¬ ['/', '/'] <+: l

instance (l : List Char) : Decidable (IsLocal l) :=
  have : Decidable (∀ c ∈ l, Text.isBlank c = false ∧ c ≠ '#' ∧ c ≠ '>') := List.decidableBAll _ _
  decidable_of_iff ((∀ c ∈ l, Text.isBlank c = false ∧ c ≠ '#' ∧ c ≠ '>') ∧
      ¬ Uri.schemeMark <:+: l ∧ ¬ ['/', '/'] <+: l)
    ⟨fun h => ⟨h.1, h.2.1, h.2.2⟩, fun h => ⟨h.chars, h.scheme, h.slashes⟩⟩

theorem IsLocal.hash (h : IsLocal l) : '#' ∉ l := fun hc => (h.chars _ hc).2.1 rfl

/-- A namespace that ends where a term is split, or an empty one. -/
def SplitsLast (ns : List Char) : Prop := ns = [] ∨ ns.getLast? = some '#'

instance (ns : List Char) : Decidable (SplitsLast ns) := inferInstanceAs (Decidable (_ ∨ _))

theorem colon_mem_prefixed : ':' ∈ prefixed name l := by simp [prefixed]

/-- The mark of a scheme is within the local name, or it starts at the colon before that. -/
theorem isInfix_prefixed (hname : ':' ∉ name) (h : Uri.schemeMark <:+: prefixed name l) :
    Uri.schemeMark <:+: l ∨ ['/', '/'] <+: l := by
  obtain ⟨as, bs, h⟩ := h
  have hcolon : as ++ ':' :: ('/' :: '/' :: bs) = name ++ ':' :: l := by
    simpa [Uri.schemeMark, prefixed] using h
  rcases List.append_eq_append_iff.1 hcolon with ⟨cs, rfl, hl⟩ | ⟨cs, rfl, hl⟩
  · cases cs with
    | nil => exact .inr ⟨bs, by simpa using hl⟩
    | cons c cs =>
      obtain rfl : ':' = c := (List.cons.inj hl).1
      simp at hname
  · cases cs with
    | nil => exact .inr ⟨bs, by simpa using hl.symm⟩
    | cons c cs => exact .inl ⟨cs, bs, by simpa [Uri.schemeMark] using (List.cons.inj hl).2.symm⟩

section

variable (hname : ∀ c ∈ name, isNameChar c = true)

include hname

theorem colon_not_mem_name : ':' ∉ name := fun hc => (isNameChar_spec (hname _ hc)).2.1 rfl

theorem head_prefixed : ∀ c ∈ (prefixed name l).head?, c ≠ '<' ∧ c ≠ '"' ∧ c ≠ '?' := by
  intro c hc
  cases name with
  | nil =>
    obtain rfl : ':' = c := by simpa [prefixed] using hc
    decide
  | cons d ds =>
    obtain rfl : d = c := by simpa [prefixed] using hc
    obtain ⟨-, -, hopen, hquote, hvar, -⟩ := isNameChar_spec (hname d List.mem_cons_self)
    exact ⟨hopen, hquote, hvar⟩

theorem chars_prefixed (hl : IsLocal l) :
    ∀ c ∈ prefixed name l, Text.isBlank c = false ∧ c ≠ '#' := by
  refine List.forall_mem_append.2 ⟨fun c hc => ?_, List.forall_mem_cons.2 ⟨by decide, ?_⟩⟩
  · obtain ⟨hblank, -, -, -, -, hhash⟩ := isNameChar_spec (hname c hc)
    exact ⟨hblank, hhash⟩
  · exact fun c hc => ⟨(hl.chars c hc).1, (hl.chars c hc).2.1⟩

/-- A name under a prefix may be any term of a statement. -/
theorem subject_prefixed (hl : IsLocal l) : Subject (prefixed name l) :=
  ⟨.run (List.ne_nil_of_mem colon_mem_prefixed) (fun c hc => (chars_prefixed hname hl c hc).1)
      fun h => (head_prefixed hname _ h).1 rfl,
    fun h => (chars_prefixed hname hl _ (List.mem_of_mem_head? h)).2 rfl,
    .inr colon_mem_prefixed⟩

theorem not_schemeMark_prefixed (hl : IsLocal l) :
    ¬ Text.occursIn Uri.schemeMark (prefixed name l) = true := fun h =>
  (isInfix_prefixed (colon_not_mem_name hname) (Text.occursIn_iff_isInfix.1 h)).elim hl.scheme
    hl.slashes

/-- As it is written, a name under a prefix has the prefix for a namespace. -/
theorem ofTerm_prefixed (hl : IsLocal l) : Uri.ofTerm (String.ofList (prefixed name l)) =
    ⟨String.ofList name, String.ofList l⟩ := by
  have hmark : ¬ Uri.IsMarked (prefixed name l) := fun h =>
    h.elim (fun h => (head_prefixed hname _ h).2.2 rfl) fun h => (head_prefixed hname _ h).2.1 rfl
  have hsplit : ¬ (Text.occursIn Uri.schemeMark (prefixed name l) = true ∨
      '#' ∈ prefixed name l) :=
    not_or.2 ⟨not_schemeMark_prefixed hname hl, fun h => (chars_prefixed hname hl _ h).2 rfl⟩
  rw [Uri.ofTerm, String.toList_ofList, (subject_prefixed hname hl).token.trimmed.trim_eq,
    Uri.ofChars_of_colon colon_mem_prefixed hmark fun h => (head_prefixed hname _ h).1 rfl,
    if_neg hsplit, Uri.ofName_eq_iff]
  simp [colon_not_mem_name hname, prefixed]

/-- A name under a prefix is read as a name in the namespace of the prefix. -/
theorem readTerm_prefixed {ns : String} (hl : IsLocal l)
    (hns : declared[String.ofList name]? = some ns) :
    readTerm declared (prefixed name l) = .ok ⟨ns, String.ofList l⟩ := by
  have hfull : ¬ WrittenInFull (prefixed name l) := by
    rintro (h | h | h | h)
    · exact (head_prefixed hname _ h).1 rfl
    · exact (head_prefixed hname _ h).2.1 rfl
    · exact absurd (h ▸ colon_mem_prefixed) (by decide)
    · exact not_schemeMark_prefixed hname hl h
  simp only [WrittenInFull, not_or] at hfull
  simp [readTerm, hfull, colon_mem_prefixed, ofTerm_prefixed hname hl, lookupNamespace?, hns]

end

/-- A name in full may be any term of a statement. -/
theorem subject_full (hns : '>' ∉ ns) (hl : IsLocal l) : Subject (full ns l) := by
  refine ⟨.brackets fun h => ?_, by simp [full], .inl (.inl rfl)⟩
  exact (List.mem_append.1 h).elim hns fun h => (hl.chars _ h).2.2 rfl

/-- A name in full is read as a name in the namespace that is kept. -/
theorem readTerm_full (hns : SplitsLast ns) (hl : '#' ∉ l) :
    readTerm declared (full ns l) = .ok (named ns l) := by
  rw [readTerm_of_full (.inl rfl), full, Uri.ofTerm_brackets]
  refine congrArg Except.ok (Uri.ofFull_eq_iff.2 ?_)
  rcases hns with rfl | hns
  · simp [named, trimNamespace, hl]
  · obtain ⟨bs, rfl⟩ := List.getLast?_eq_some_iff.1 hns
    simp [named, trimNamespace, hl]

/-! ## Namespaces in force -/

/-- The prefix has the namespace. -/
def InForce (declared : Namespaces) (name ns : List Char) : Prop :=
  declared[String.ofList name]? = some (String.ofList (trimNamespace ns))

/-- A line does not declare the prefix. -/
def Keeps (name line : List Char) : Prop := ∀ ns, declaration? (Text.trim line) ≠ some (name, ns)

namespace Progress

/-- A declared prefix has its namespace. -/
theorem add_inForce (h : declaration? (Text.trim line) = some (name, ns)) :
    InForce (q.add n line).namespaces name ns := by
  rw [add, readLine_eq_declaration.2 ⟨name, ns, h, rfl, rfl⟩, InForce]
  simp [addNamespace]

/-- It has it until it is declared anew. -/
theorem add_keeps (h : Keeps name line) (hq : InForce q.namespaces name ns) :
    InForce (q.add n line).namespaces name ns := by
  rw [add]
  cases hline : readLine q.namespaces (Text.trim line) with
  | nothing => exact hq
  | statement t => exact hq
  | skipped why => exact hq
  | declaration a b =>
    obtain ⟨name', ns', hd, rfl, -⟩ := readLine_eq_declaration.1 hline
    have hne : String.ofList name' ≠ String.ofList name := fun heq =>
      h ns' (String.ofList_injective heq ▸ hd)
    show (Std.ExtTreeMap.insert _ _ _)[String.ofList name]? = _
    rw [Std.ExtTreeMap.getElem?_insert, if_neg (by simpa using hne)]
    exact hq

theorem addAll_append (ls ls' : List (List Char)) :
    q.addAll n (ls ++ ls') = (q.addAll n ls).addAll (n + ls.length) ls' := by
  induction ls generalizing q n with
  | nil => rfl
  | cons line ls ih =>
    rw [List.cons_append, addAll, ih, List.length_cons, Nat.add_right_comm, Nat.add_assoc]
    rfl

theorem addAll_keeps (h : ∀ line ∈ ls, Keeps name line) (hq : InForce q.namespaces name ns) :
    InForce (q.addAll n ls).namespaces name ns := by
  induction ls generalizing q n with
  | nil => exact hq
  | cons line ls ih =>
    obtain ⟨hline, hls⟩ := List.forall_mem_cons.1 h
    exact ih hls (add_keeps hline hq)

/-- No line takes a statement back. -/
theorem mem_addAll (ls : List (List Char)) (h : t ∈ q.triples) :
    t ∈ (q.addAll n ls).triples := by
  induction ls generalizing q n with
  | nil => exact h
  | cons line ls ih =>
    refine ih ?_
    rw [add]
    split
    · exact h
    · exact h
    · exact List.mem_cons_of_mem _ h
    · exact h

end Progress

theorem States.keeps (h : States line s p o) : Keeps name line := by
  intro ns hd
  have hline : readLine ∅ (Text.trim line) = _ := readLine_eq_declaration.2 ⟨_, _, hd, rfl, rfl⟩
  rw [h.readLine_eq] at hline
  cases hread : readTriple ∅ s p o <;> rw [hread] at hline <;> cases hline

/-- The statement of a line is added if its terms have a meaning. -/
theorem States.mem_add (h : States line s p o) (ht : readTriple q.namespaces s p o = .ok t) :
    t ∈ (q.add n line).triples := by
  rw [Progress.add, h.readLine_eq, ht]
  exact List.mem_cons_self

/-! ## Spelling anew -/

/-- Two texts of one term: they are the same, or the second one has in full what the first one has
under a prefix. -/
inductive Respells (name ns : List Char) : List Char → List Char → Prop
  /-- The text is left as it is. -/
  | same (cs : List Char) : Respells name ns cs cs
  /-- A name is spelled in full. -/
  | inFull {l : List Char} (hl : IsLocal l) : Respells name ns (prefixed name l) (full ns l)

/-- Two lines that say the same in the two spellings. -/
inductive RespellsLine (name ns : List Char) : List Char → List Char → Prop
  /-- The line is left as it is, and it does not declare the prefix anew. -/
  | same {line : List Char} (hline : Keeps name line) : RespellsLine name ns line line
  /-- Any terms of a statement are spelled anew.  The white space may change as well. -/
  | statement {line line' s s' p p' o o' : List Char} (hline : States line s p o)
    (hline' : States line' s' p' o') (hs : Respells name ns s s') (hp : Respells name ns p p')
    (ho : Respells name ns o o') : RespellsLine name ns line line'

theorem RespellsLine.keeps (h : RespellsLine name ns line line') : Keeps name line := by
  cases h with
  | same hline => exact hline
  | statement hline _ _ _ _ => exact hline.keeps

section

variable (hname : ∀ c ∈ name, isNameChar c = true) (hns : SplitsLast ns)

include hname hns

theorem Respells.readTerm_eq (h : Respells name ns s s') (hforce : InForce declared name ns) :
    readTerm declared s = readTerm declared s' := by
  cases h with
  | same _ => rfl
  | inFull hl =>
    rw [readTerm_prefixed hname hl hforce, readTerm_full hns hl.hash]
    rfl

theorem RespellsLine.add_eq (h : RespellsLine name ns line line')
    (hforce : InForce q.namespaces name ns) : q.add n line = q.add n line' := by
  cases h with
  | same _ => rfl
  | statement hline hline' hs hp ho =>
    rw [Progress.add, Progress.add, hline.readLine_eq, hline'.readLine_eq, readTriple, readTriple,
      hs.readTerm_eq hname hns hforce, hp.readTerm_eq hname hns hforce,
      ho.readTerm_eq hname hns hforce]

theorem addAll_eq_of_respelled (h : List.Forall₂ (RespellsLine name ns) ls ls')
    (hforce : InForce q.namespaces name ns) : q.addAll n ls = q.addAll n ls' := by
  induction h generalizing q n with
  | nil => rfl
  | cons hline _ ih =>
    rw [Progress.addAll, Progress.addAll, ← hline.add_eq hname hns hforce]
    exact ih (Progress.add_keeps hline.keeps hforce)

end

/-- The prefixes that the lines of a file declare. -/
def declaredBy (ls : List (List Char)) : Namespaces :=
  ((Progress.mk [] ∅ []).addAll 1 ls).namespaces

/-- Behind the declaration of a prefix whose namespace ends in `#`, a file may have names in either
spelling.  It says the same.  On each line both spellings of a name may stand as a term, and both
stand for the local name in the namespace without its `#`.  What is stated of such terms is among
the statements of the file. -/
theorem read_respelled {text text' : String} {before after : List (List Char)} {decl : List Char}
    (hdecl : declaration? (Text.trim decl) = some (name, ns)) (hns : SplitsLast ns)
    (hls : List.Forall₂ (RespellsLine name ns) ls ls')
    (htext : Text.lines text.toList = before ++ decl :: (ls ++ after))
    (htext' : Text.lines text'.toList = before ++ decl :: (ls' ++ after)) :
    read text = read text' ∧
      ∀ start line rest, ls = start ++ line :: rest →
        let declared := declaredBy (before ++ decl :: start)
        (∀ l, IsLocal l →
          (Subject (prefixed name l) ∧ readTerm declared (prefixed name l) = .ok (named ns l)) ∧
            Subject (full ns l) ∧ readTerm declared (full ns l) = .ok (named ns l)) ∧
        ∀ s p o t, States line s p o → readTriple declared s p o = .ok t →
          t ∈ (read text).1.triples := by
  obtain ⟨hname, hclose⟩ := declaration?_spec hdecl
  have hforce (q : Progress) (n : Nat) : InForce (q.add n decl).namespaces name ns :=
    Progress.add_inForce hdecl
  constructor
  · simp only [read, htext, htext', Progress.addAll_append, Progress.addAll]
    rw [addAll_eq_of_respelled hname hns hls (hforce _ _), hls.length_eq]
  · rintro start line rest rfl
    have hkeeps : ∀ line' ∈ start ++ line :: rest, Keeps name line' :=
      ((List.forall₂_and_left _ _).1 (hls.imp fun _ _ hline => ⟨hline.keeps, hline⟩)).1
    have hdeclared : InForce (declaredBy (before ++ decl :: start)) name ns := by
      rw [declaredBy, Progress.addAll_append, Progress.addAll]
      exact Progress.addAll_keeps (fun line' h => hkeeps line' (List.mem_append_left _ h))
        (hforce _ _)
    refine ⟨fun l hl => ⟨⟨subject_prefixed hname hl, readTerm_prefixed hname hl hdeclared⟩,
      subject_full hclose hl, readTerm_full hns hl.hash⟩, fun s p o t hline ht => ?_⟩
    have hlines : Text.lines text.toList = (before ++ decl :: start) ++ line :: (rest ++ after) := by
      rw [htext]
      simp
    rw [read, hlines, Progress.addAll_append, List.mem_reverse, Progress.addAll]
    exact Progress.mem_addAll _ (hline.mem_add ht)

/-- Names as each of the three terms, one of them with an empty local name, around a comment. -/
theorem read_respelled_three :
    let prefixes := "@prefix ex: <http://e/b#> .\n<urn:a> a ex:x .\n# ex:\nex: ex:p \"lit\" .\n"
    let inFull := "@prefix ex: <http://e/b#> .\n<urn:a> a <http://e/b#x> .\n# ex:\n" ++
      "<http://e/b#>\t<http://e/b#p> \"lit\".\n"
    read prefixes = read inFull ∧ (parse inFull).triples =
      [⟨⟨"", "urn:a"⟩, Uri.rdfType, ⟨"http://e/b", "x"⟩⟩,
        ⟨⟨"http://e/b", ""⟩, ⟨"http://e/b", "p"⟩, ⟨"", "\"lit\""⟩⟩] := by
  intro prefixes inFull
  have hdecl : declaration? (Text.trim "@prefix ex: <http://e/b#> .".toList) =
      some ("ex".toList, "http://e/b#".toList) := by decide
  obtain ⟨hname, hclose⟩ := declaration?_spec hdecl
  have hempty : IsLocal "".toList := by decide
  have hp : IsLocal "p".toList := by decide
  have hx : IsLocal "x".toList := by decide
  have hurn : Subject "<urn:a>".toList :=
    ⟨@Token.brackets "urn:a".toList (by decide), by decide, .inl (.inl rfl)⟩
  have ha : Token "a".toList := .run (by decide) (List.all_iff_forall_prop.1 (by decide)) (by decide)
  have hlit : Object "\"lit\"".toList := .inr (by decide)
  have hobject : RespellsLine "ex".toList "http://e/b#".toList "<urn:a> a ex:x .".toList
      "<urn:a> a <http://e/b#x> .".toList :=
    .statement
      (@States.spaced [] _ [' '] _ [' '] _ [' '] [] hurn ha (.inl (subject_prefixed hname hx).token)
        (by decide) (by decide))
      (@States.spaced [] _ [' '] _ [' '] _ [' '] [] hurn ha (.inl (subject_full hclose hx).token)
        (by decide) (by decide))
      (.same _) (.same _) (.inFull hx)
  have hcomment : RespellsLine "ex".toList "http://e/b#".toList "# ex:".toList "# ex:".toList :=
    .same fun _ h => nomatch h.symm.trans (by decide : _ = none)
  have hothers : RespellsLine "ex".toList "http://e/b#".toList "ex: ex:p \"lit\" .".toList
      "<http://e/b#>\t<http://e/b#p> \"lit\".".toList :=
    .statement
      (@States.spaced [] _ [' '] _ [' '] _ [' '] [] (subject_prefixed hname hempty)
        (subject_prefixed hname hp).token hlit (by decide) (by decide))
      (@States.spaced [] _ ['\t'] _ [' '] _ [] [] (subject_full hclose hempty)
        (subject_full hclose hp).token hlit (by decide) (by decide))
      (.inFull hempty) (.inFull hp) (.same _)
  exact ⟨(@read_respelled _ _ _ _ _ _ [] [[]] _ hdecl (by decide)
    (.cons hobject (.cons hcomment (.cons hothers .nil))) (by decide) (by decide)).1,
    by decide +kernel⟩

/-- A namespace that ends in a slash, and a local name that makes a scheme of its prefix. -/
theorem spellings_apart :
    (parse "@prefix p: <http://e/> .\np:x <u#q> <http://e/x> .\n").triples =
        [⟨⟨"http://e/", "x"⟩, ⟨"u", "q"⟩, ⟨"", "http://e/x"⟩⟩] ∧
      (parse "@prefix p: <http://e#> .\np://x p:q <http://e#//x> .\n").triples =
        [⟨⟨"", "p://x"⟩, ⟨"http://e", "q"⟩, ⟨"http://e", "//x"⟩⟩] := by
  decide +kernel

end Dataset.Turtle

end TripleStore
