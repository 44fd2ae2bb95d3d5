import Mathlib.Data.Bool.AllAny
import TripleStore.Proofs.Query.Restored

/-!
# The grammar of paths

A predicate of a path is written in one of three ways: a full term between
brackets, a prefix and a local name with a colon between them, or a full term as
it is, which is a scheme, `://`, more characters, a `#` and a local name.  `Names`
says which texts these are, and the predicate of each.  The mark of a quantifier
may follow it.

A path is written as such texts with slashes between them, and is read as their
predicates and quantifiers, whatever forms are mixed in it.  A slash within a full
term separates nothing, be it between brackets or before the `#`.  One behind a
local name does, even if that ends in a colon, as no predicate starts with a slash.
-/

namespace TripleStore.PathStep

variable {cs mark : List Char} {u : Uri}

/-! ## How predicates are written -/

/-- A character of a prefix or a local name. -/
def NameChar (c : Char) : Prop := c ≠ '/' ∧ c ≠ '#' ∧ c ≠ '<' ∧ c ≠ '>' ∧ Text.isBlank c = false

instance (c : Char) : Decidable (NameChar c) := inferInstanceAs (Decidable (_ ∧ _))

theorem NameChar.outside {c : Char} (h : NameChar c) : c ≠ '/' ∧ c ≠ '<' ∧ c ≠ '>' :=
  ⟨h.1, h.2.2.1, h.2.2.2.1⟩

/-- A text that does not end in the mark of a quantifier. -/
def Unmarked (cs : List Char) : Prop :=
  cs.getLast? ≠ some '?' ∧ cs.getLast? ≠ some '+' ∧ cs.getLast? ≠ some '*'

instance (cs : List Char) : Decidable (Unmarked cs) := inferInstanceAs (Decidable (_ ∧ _))

/-- A text that a predicate may be written as. -/
inductive Names : List Char → Uri → Prop
  /-- A full term between brackets, split at its last `#`. -/
  | brackets {ns value : List Char} (hopen : '<' ∉ ns ++ value) (hclose : '>' ∉ ns ++ value)
    (hvalue : '#' ∉ value) :
    Names ('<' :: (ns ++ '#' :: value) ++ ['>']) ⟨String.ofList ns, String.ofList value⟩
  /-- A full term between brackets that has no `#`. -/
  | bracketsBare {value : List Char} (hopen : '<' ∉ value) (hclose : '>' ∉ value)
    (hvalue : '#' ∉ value) : Names ('<' :: value ++ ['>']) ⟨"", String.ofList value⟩
  /-- A prefix and a local name. -/
  | prefixed {pre loc : List Char} (hchars : ∀ c ∈ pre ++ loc, NameChar c) (hpre : ':' ∉ pre)
    (hvar : ¬ Uri.IsMarked (pre ++ ':' :: loc)) (hloc : Unmarked loc) :
    Names (pre ++ ':' :: loc) ⟨String.ofList pre, String.ofList loc⟩
  /-- A full term as it is.  A scheme has letters, which are neither separators nor marks. -/
  | full {scheme rest loc : List Char} (hscheme : ∀ c ∈ scheme, NameChar c)
    (hvar : ¬ Uri.IsMarked scheme)
    (hrest : ∀ c ∈ rest, c ≠ '#' ∧ c ≠ '<' ∧ c ≠ '>' ∧ Text.isBlank c = false)
    (hchars : ∀ c ∈ loc, NameChar c) (hloc : Unmarked loc) :
    Names (scheme ++ Uri.schemeMark ++ rest ++ '#' :: loc)
      ⟨String.ofList (scheme ++ Uri.schemeMark ++ rest), String.ofList loc⟩

/-- A text that a step may be written as: its predicate, and the mark of its quantifier. -/
def Writes (cs : List Char) (s : PathStep) : Prop :=
  ∃ name, Names name s.predicate ∧ cs = name ++ s.quantifier.suffix.toList

/-! ## Where the text of a predicate ends -/

/-- Nothing before the `#` of a full term is a cut. -/
theorem pieces_full {piece : List Char} (hpiece : '#' ∉ piece)
    (h : ∀ c ∈ cs, c ≠ '#' ∧ c ≠ '<' ∧ c ≠ '>') (rest : List Char) :
    pieces false true piece (cs ++ rest) = pieces false true (cs.reverse ++ piece) rest := by
  induction cs generalizing piece with
  | nil => rfl
  | cons c cs ih =>
    obtain ⟨⟨hhash, hopen, hclose⟩, h⟩ := List.forall_mem_cons.1 h
    have hcut : isCut false true piece c (cs ++ rest).head? = false := by simp [isCut, hpiece]
    have hsame : bracketedAfter false c = false := by simp [bracketedAfter, hopen, hclose]
    have hnext : '#' ∉ c :: piece := by simp [hpiece, Ne.symm hhash]
    rw [List.cons_append, pieces_cons, hcut, if_neg Bool.false_ne_true, hsame, Bool.true_or,
      ih hnext h]
    simp

/-- A scheme and the mark behind it start a full term. -/
theorem segments_scheme {scheme : List Char} (h : ∀ c ∈ scheme, c ≠ '/' ∧ c ≠ '<' ∧ c ≠ '>')
    (rest : List Char) : segments (scheme ++ Uri.schemeMark ++ rest) =
      pieces false true ('/' :: ':' :: scheme.reverse) ('/' :: rest) := by
  have hcolon : pieces false false scheme.reverse (':' :: '/' :: '/' :: rest) =
      pieces false false (':' :: scheme.reverse) ('/' :: '/' :: rest) := pieces_cons _ _ _ _ _
  have hslash : pieces false false (':' :: scheme.reverse) ('/' :: '/' :: rest) =
      pieces false true ('/' :: ':' :: scheme.reverse) ('/' :: rest) := pieces_cons _ _ _ _ _
  rw [segments, List.append_assoc, pieces_outside h, List.append_nil, ← hslash, ← hcolon]
  rfl

/-- A full term is one segment, with the mark behind it. -/
theorem endsAtSlash_of_full {scheme rest loc : List Char}
    (hscheme : ∀ c ∈ scheme, NameChar c) (hrest : ∀ c ∈ rest, c ≠ '#' ∧ c ≠ '<' ∧ c ≠ '>')
    (hloc : ∀ c ∈ loc, c ≠ '/' ∧ c ≠ '<' ∧ c ≠ '>') :
    EndsAtSlash (scheme ++ Uri.schemeMark ++ rest ++ '#' :: loc) ∧
      IsSegment (scheme ++ Uri.schemeMark ++ rest ++ '#' :: loc) := by
  have hpiece : '#' ∉ '/' :: ':' :: scheme.reverse := by
    simpa using fun h => (hscheme '#' h).2.1 rfl
  have hslash : ∀ c ∈ '/' :: rest, c ≠ '#' ∧ c ≠ '<' ∧ c ≠ '>' :=
    List.forall_mem_cons.2 ⟨by decide, hrest⟩
  have hlocal : ∀ c ∈ '#' :: loc, c ≠ '/' ∧ c ≠ '<' ∧ c ≠ '>' :=
    List.forall_mem_cons.2 ⟨by decide, hloc⟩
  have hwhole : ∀ tail, segments (scheme ++ Uri.schemeMark ++ rest ++ '#' :: loc ++ tail) =
      pieces false true (scheme ++ Uri.schemeMark ++ rest ++ '#' :: loc).reverse tail := by
    intro tail
    have htext : scheme ++ Uri.schemeMark ++ rest ++ '#' :: loc ++ tail =
        scheme ++ Uri.schemeMark ++ (rest ++ ('#' :: loc ++ tail)) := by simp
    rw [htext, segments_scheme fun c hc => (hscheme c hc).outside, ← List.cons_append,
      pieces_full hpiece hslash, pieces_outside hlocal]
    simp [Uri.schemeMark]
  exact endsAtSlash_of_pieces (fun _ => by simp) hwhole

/-- The text of a predicate is one segment that ends at a slash, with a mark behind it or without. -/
theorem Names.endsAtSlash (h : Names cs u) (hmark : ∀ c ∈ mark, c ≠ '/' ∧ c ≠ '<' ∧ c ≠ '>') :
    EndsAtSlash (cs ++ mark) ∧ IsSegment (cs ++ mark) := by
  cases h with
  | @brackets ns value _ hclose _ =>
    have hwhole : '>' ∉ ns ++ '#' :: value := by
      rw [List.mem_append, List.mem_cons, ← or_left_comm, ← List.mem_append]
      exact not_or.2 ⟨by decide, hclose⟩
    rw [List.append_assoc]
    exact endsAtSlash_of_brackets hwhole hmark
  | bracketsBare _ hclose _ =>
    rw [List.append_assoc]
    exact endsAtSlash_of_brackets hclose hmark
  | prefixed hchars _ _ _ =>
    obtain ⟨hpre, hloc⟩ := List.forall_mem_append.1 hchars
    refine endsAtSlash_of_plain (List.forall_mem_append.2 ⟨?_, hmark⟩)
    exact List.forall_mem_append.2 ⟨fun c hc => (hpre c hc).outside,
      List.forall_mem_cons.2 ⟨by decide, fun c hc => (hloc c hc).outside⟩⟩
  | full hscheme _ hrest hchars _ =>
    rw [List.append_assoc, List.cons_append]
    exact endsAtSlash_of_full hscheme (fun c hc => ⟨(hrest c hc).1, (hrest c hc).2.1,
      (hrest c hc).2.2.1⟩)
      (List.forall_mem_append.2 ⟨fun c hc => (hchars c hc).outside, hmark⟩)

/-! ## What the text of a predicate is read as -/

/-- What stands at the edges of the text of a predicate: no white space, and no mark at its end. -/
structure Edged (cs : List Char) : Prop where
  /-- It does not start in white space. -/
  head : ∀ c ∈ cs.head?, Text.isBlank c = false
  /-- It ends in something, which is neither white space nor a mark. -/
  last : ∃ as c, cs = as ++ [c] ∧ Text.isBlank c = false ∧ Quantifier.ofMark? c = none

/-- A local name behind something that is no mark. -/
theorem exists_last {c : Char} {loc : List Char} (hc : Text.isBlank c = false)
    (hmark : Quantifier.ofMark? c = none) (hchars : ∀ c ∈ loc, NameChar c) (hloc : Unmarked loc)
    (as : List Char) : ∃ bs d, as ++ c :: loc = bs ++ [d] ∧ Text.isBlank d = false ∧
      Quantifier.ofMark? d = none := by
  cases hlast : loc.getLast? with
  | none =>
    rw [List.getLast?_eq_none_iff.1 hlast]
    exact ⟨as, c, rfl, hc, hmark⟩
  | some d =>
    obtain ⟨bs, rfl⟩ := List.getLast?_eq_some_iff.1 hlast
    refine ⟨as ++ c :: bs, d, by simp, (hchars d (by simp)).2.2.2.2, ?_⟩
    cases hd : Quantifier.ofMark? d with
    | none => rfl
    | some q =>
      obtain ⟨hq, hp, hs⟩ := hloc
      rcases mark_cases hd with rfl | rfl | rfl
      · exact absurd hlast hq
      · exact absurd hlast hp
      · exact absurd hlast hs

theorem Names.edged (h : Names cs u) : Edged cs := by
  have hbracket : ∀ inner : List Char, Edged ('<' :: inner ++ ['>']) := fun inner =>
    ⟨fun c hc => by obtain rfl : '<' = c := by simpa using hc
                    decide, _, '>', rfl, by decide, rfl⟩
  cases h with
  | brackets _ _ _ => exact hbracket _
  | bracketsBare _ _ _ => exact hbracket _
  | @prefixed pre loc hchars _ _ hloc =>
    obtain ⟨hpre, hchars⟩ := List.forall_mem_append.1 hchars
    refine ⟨fun c hc => ?_, exists_last (by decide) rfl hchars hloc pre⟩
    cases pre with
    | nil =>
      obtain rfl : ':' = c := by simpa using hc
      decide
    | cons d pre =>
      obtain rfl : d = c := by simpa using hc
      exact (hpre d List.mem_cons_self).2.2.2.2
  | @full scheme rest loc hscheme _ _ hchars hloc =>
    refine ⟨fun c hc => ?_, exists_last (by decide) rfl hchars hloc _⟩
    cases scheme with
    | nil =>
      obtain rfl : ':' = c := by simpa [Uri.schemeMark] using hc
      decide
    | cons d scheme =>
      obtain rfl : d = c := by simpa using hc
      exact (hscheme d List.mem_cons_self).2.2.2.2

theorem Edged.ne_nil (h : Edged cs) : cs ≠ [] := by
  obtain ⟨as, c, rfl, -, -⟩ := h.last
  simp

theorem Edged.trim_eq (h : Edged cs) : Text.trim cs = cs := by
  refine Text.trim_eq_self h.head fun c hc => ?_
  obtain ⟨as, d, rfl, hd, -⟩ := h.last
  obtain rfl : d = c := by simpa using hc
  exact hd

/-- The mark behind the text of a predicate is the quantifier, and the rest is that text. -/
theorem Edged.splitQuantifier_eq (h : Edged cs) (q : Quantifier) :
    splitQuantifier (Text.trim (cs ++ q.suffix.toList)) = (cs, q) := by
  rcases suffix_cases q with ⟨rfl, hsuffix⟩ | ⟨c, hsuffix, hc⟩
  · obtain ⟨as, c, hcs, -, hmark⟩ := h.last
    rw [hsuffix, List.append_nil, h.trim_eq, hcs]
    exact splitQuantifier_concat hmark
  · rw [hsuffix, Text.trim_concat (ofMark?_ne_single hc).2, Text.dropWhile_eq_self h.head]
    exact splitQuantifier_mark h.ne_nil hc

theorem Names.ofTerm_eq (h : Names cs u) : Uri.ofTerm (String.ofList cs) = u := by
  have hread : Uri.ofTerm (String.ofList cs) = Uri.ofChars cs := by
    rw [Uri.ofTerm, String.toList_ofList, h.edged.trim_eq]
  cases h with
  | brackets _ _ hvalue =>
    rw [Uri.ofTerm_brackets, Uri.ofFull_eq_iff]
    simp [hvalue]
  | bracketsBare _ _ hvalue =>
    rw [Uri.ofTerm_brackets, Uri.ofFull_eq_iff]
    simp [hvalue]
  | @prefixed pre loc hchars hpre hvar _ =>
    obtain ⟨hpres, hlocs⟩ := List.forall_mem_append.1 hchars
    have hwhole : ∀ c ∈ pre ++ ':' :: loc, c ≠ '/' ∧ c ≠ '#' ∧ c ≠ '<' :=
      List.forall_mem_append.2 ⟨fun c hc => ⟨(hpres c hc).1, (hpres c hc).2.1, (hpres c hc).2.2.1⟩,
        List.forall_mem_cons.2 ⟨by decide,
          fun c hc => ⟨(hlocs c hc).1, (hlocs c hc).2.1, (hlocs c hc).2.2.1⟩⟩⟩
    have hscheme : ¬ Text.occursIn Uri.schemeMark (pre ++ ':' :: loc) = true := fun h =>
      (hwhole '/' ((Text.occursIn_iff_isInfix.1 h).subset (by decide))).1 rfl
    have hopen : (pre ++ ':' :: loc).head? ≠ some '<' := fun h =>
      (hwhole '<' (List.mem_of_mem_head? h)).2.2 rfl
    rw [hread, Uri.ofChars_of_colon (by simp) hvar hopen,
      if_neg (not_or.2 ⟨hscheme, fun h => (hwhole _ h).2.1 rfl⟩), Uri.ofName_eq_iff]
    simp [hpre]
  | @full scheme rest loc hscheme hvar hrest hchars _ =>
    have hhash : '#' ∉ loc := fun h => (hchars _ h).2.1 rfl
    have hhead : ¬ Uri.IsMarked (scheme ++ Uri.schemeMark ++ rest ++ '#' :: loc) ∧
        (scheme ++ Uri.schemeMark ++ rest ++ '#' :: loc).head? ≠ some '<' := by
      cases scheme with
      | nil => simp [Uri.IsMarked, Uri.schemeMark]
      | cons c cs =>
        exact ⟨by simpa [Uri.IsMarked] using hvar,
          by simpa using (hscheme c List.mem_cons_self).2.2.1⟩
    rw [hread, Uri.ofChars_of_colon (by simp [Uri.schemeMark]) hhead.1 hhead.2,
      if_pos (Or.inr (by simp)), Uri.ofFull_eq_iff]
    simp [hhash]

theorem Writes.ne_nil {s : PathStep} (h : Writes cs s) : cs ≠ [] := by
  obtain ⟨name, hname, rfl⟩ := h
  exact List.append_ne_nil_of_left_ne_nil hname.edged.ne_nil _

theorem Writes.ofSegment?_eq {s : PathStep} (h : Writes cs s) : ofSegment? cs = some s := by
  obtain ⟨name, hname, rfl⟩ := h
  rw [ofSegment?_of_split (hname.edged.splitQuantifier_eq _) hname.edged.ne_nil, hname.ofTerm_eq]

theorem Writes.endsAtSlash {s : PathStep} (h : Writes cs s) : EndsAtSlash cs ∧ IsSegment cs := by
  obtain ⟨name, hname, rfl⟩ := h
  exact hname.endsAtSlash (plain_suffix _)

/-- Texts of steps with slashes between them are read as those steps, whatever forms are mixed. -/
theorem ofPath_of_writes {texts : List (List Char)} {steps : List PathStep} (hne : texts ≠ [])
    (h : List.Forall₂ Writes texts steps) :
    ofPath (String.ofList (['/'].intercalate texts)) = .ok steps := by
  have hall : ∀ cs ∈ texts, cs ≠ [] ∧ EndsAtSlash cs ∧ IsSegment cs :=
    ((List.forall₂_and_left _ _).1 (h.imp fun _ _ hs => ⟨⟨hs.ne_nil, hs.endsAtSlash⟩, hs⟩)).1
  have hsegments : segments (['/'].intercalate texts) = texts := by
    obtain ⟨t, ts, rfl⟩ := List.exists_cons_of_ne_nil hne
    exact (segments_intercalate_iff fun cs hcs => (hall cs hcs).1).2
      ⟨fun cs hcs => (hall cs (List.dropLast_subset _ hcs)).2.1,
        fun cs hcs => (hall cs (List.mem_of_getLast? hcs)).2.2⟩
  have hread : (segments (['/'].intercalate texts)).mapM ofSegment? = some steps := by
    rw [hsegments, mapM_eq_some]
    exact h.imp fun _ _ hs => hs.ofSegment?_eq
  rw [ofPath, String.toList_ofList, hread]

/-- Slashes in brackets, before the `#` of a full term, and behind a local name that ends in a
colon, in one path. -/
theorem ofPath_of_writes_mixed :
    ofPath "<http://e/a#b>+/p:x:/http://e/c/d#f?/<urn:a/b>*/q:" =
      .ok [⟨⟨"http://e/a", "b"⟩, .onePlus⟩, ⟨⟨"p", "x:"⟩, .single⟩,
        ⟨⟨"http://e/c/d", "f"⟩, .zeroOne⟩, ⟨⟨"", "urn:a/b"⟩, .zeroPlus⟩, ⟨⟨"q", ""⟩, .single⟩] := by
  have hb : Writes "<http://e/a#b>+".toList ⟨⟨"http://e/a", "b"⟩, .onePlus⟩ :=
    ⟨_, @Names.brackets "http://e/a".toList "b".toList (by decide) (by decide) (by decide), rfl⟩
  have hx : Writes "p:x:".toList ⟨⟨"p", "x:"⟩, .single⟩ :=
    ⟨_, @Names.prefixed "p".toList "x:".toList (List.all_iff_forall_prop.1 (by decide))
      (by decide) (by decide) (by decide), rfl⟩
  have hf : Writes "http://e/c/d#f?".toList ⟨⟨"http://e/c/d", "f"⟩, .zeroOne⟩ :=
    ⟨_, @Names.full "http".toList "e/c/d".toList "f".toList
      (List.all_iff_forall_prop.1 (by decide)) (by decide)
      (List.all_iff_forall_prop.1 (by decide)) (List.all_iff_forall_prop.1 (by decide))
      (by decide), rfl⟩
  have hurn : Writes "<urn:a/b>*".toList ⟨⟨"", "urn:a/b"⟩, .zeroPlus⟩ :=
    ⟨_, @Names.bracketsBare "urn:a/b".toList (by decide) (by decide) (by decide), rfl⟩
  have hq : Writes "q:".toList ⟨⟨"q", ""⟩, .single⟩ :=
    ⟨_, @Names.prefixed "q".toList [] (List.all_iff_forall_prop.1 (by decide)) (by decide)
      (by decide) (by decide), rfl⟩
  exact ofPath_of_writes (List.cons_ne_nil _ _)
    (.cons hb (.cons hx (.cons hf (.cons hurn (.cons hq .nil)))))

end TripleStore.PathStep
