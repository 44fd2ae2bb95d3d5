import TripleStore.Proofs.Text.Blank
import TripleStore.Uri

/-!
# Terms read back

A term is written without a record of how it was spelled, and what is written is
spelled anew.  `Uri.Restored` says which terms that gives back: those whose text
falls under the rule of reading that splits it where it was joined.

Among the others are a value that reads as the keyword `a`, a value with a colon
that is taken for a prefix, and a value with white space around it.

What is written for a term is the shortest of its spellings.  So a term comes
back only if nothing of its text is lost on the way, neither white space nor
brackets, and then the rules can be gone through one by one.
-/

namespace TripleStore.Uri

variable {cs : List Char} {u : Uri}

/-! ## What each rule of reading gives -/

theorem ofFull_eq_iff : ofFull cs = u ↔ '#' ∉ u.value.toList ∧
    (cs = u.ns.toList ++ '#' :: u.value.toList ∨ u.ns = "" ∧ cs = u.value.toList) := by
  constructor
  · unfold ofFull
    split
    · next h =>
      rintro rfl
      obtain ⟨hafter, rfl⟩ := Text.splitLast_eq_some.1 h
      simp [hafter]
    · next h =>
      rintro rfl
      simp [Text.splitLast_eq_none.1 h]
  · rintro ⟨hvalue, hcs | ⟨hns, rfl⟩⟩
    · rw [ofFull, Text.splitLast_eq_some.2 ⟨hvalue, hcs⟩]
      simp
    · rw [ofFull, Text.splitLast_eq_none.2 hvalue]
      simp [Uri.ext_iff, hns]

theorem ofName_eq_iff : ofName cs = u ↔
    (':' ∉ u.ns.toList ∧ cs = u.ns.toList ++ ':' :: u.value.toList) ∨
      (u.ns = "" ∧ ':' ∉ u.value.toList ∧ cs = u.value.toList) := by
  constructor
  · unfold ofName
    split
    · next h =>
      rintro rfl
      obtain ⟨hbefore, rfl⟩ := Text.splitFirst_eq_some.1 h
      simp [hbefore]
    · next h =>
      rintro rfl
      simp [Text.splitFirst_eq_none.1 h]
  · rintro (⟨hns, hcs⟩ | ⟨hns, hvalue, rfl⟩)
    · rw [ofName, Text.splitFirst_eq_some.2 ⟨hns, hcs⟩]
      simp
    · rw [ofName, Text.splitFirst_eq_none.2 hvalue]
      simp [Uri.ext_iff, hns]

theorem bracketed?_eq_some {inner : List Char} :
    bracketed? cs = some inner ↔ cs = '<' :: inner ++ ['>'] := by
  constructor
  · intro h
    unfold bracketed? at h
    split at h
    · next ds =>
      split at h
      · next hlast =>
        cases h
        obtain ⟨es, rfl⟩ := List.getLast?_eq_some_iff.1 hlast
        simp
      · cases h
    · cases h
  · rintro rfl
    simp [bracketed?]

/-- A text that is a variable or a literal. -/
def IsMarked (cs : List Char) : Prop := cs.head? = some '?' ∨ cs.head? = some '"'

instance (cs : List Char) : Decidable (IsMarked cs) := inferInstanceAs (Decidable (_ ∨ _))

theorem ofChars_of_marked (h : IsMarked cs) : ofChars cs = ⟨"", String.ofList cs⟩ := by
  have hne : cs ≠ ['a'] := by
    rintro rfl
    rcases h with h | h <;> cases h
  rw [ofChars, if_neg hne, if_pos (by simpa [IsMarked] using h)]

theorem ofChars_of_brackets {inner : List Char} (h : bracketed? cs = some inner) :
    ofChars cs = ofFull inner := by
  have hcs := bracketed?_eq_some.1 h
  rw [ofChars, h, hcs, if_neg (by simp), if_neg (by simp)]

theorem ofChars_of_plain (ha : cs ≠ ['a']) (hm : ¬ IsMarked cs) (hb : bracketed? cs = none) :
    ofChars cs =
      if Text.occursIn schemeMark cs = true ∨ '#' ∈ cs then ofFull cs else ofName cs := by
  rw [ofChars, if_neg ha, if_neg (by simpa [IsMarked] using hm), hb]
  simp

/-- What is read of a text with a colon that neither is a variable or a literal nor opens a
bracket. -/
theorem ofChars_of_colon (hcolon : ':' ∈ cs) (hm : ¬ IsMarked cs) (hopen : cs.head? ≠ some '<') :
    ofChars cs = if Text.occursIn schemeMark cs = true ∨ '#' ∈ cs then ofFull cs else ofName cs := by
  refine ofChars_of_plain ?_ hm (Option.eq_none_iff_forall_ne_some.2 fun inner h => ?_)
  · rintro rfl
    simp at hcolon
  · rw [bracketed?_eq_some.1 h] at hopen
    exact hopen rfl

theorem trim_opened {c : Char} (inner : List Char) (hc : Text.isBlank c = false) :
    Text.trim ('<' :: inner ++ [c]) = '<' :: inner ++ [c] := by
  have hopen : Text.isBlank '<' = false := by decide
  rw [Text.trim_concat hc, List.dropWhile_cons_of_neg (by simp [hopen])]

theorem ofTerm_brackets (inner : List Char) :
    ofTerm (String.ofList ('<' :: inner ++ ['>'])) = ofFull inner := by
  rw [ofTerm, String.toList_ofList, trim_opened inner (by decide),
    ofChars_of_brackets (bracketed?_eq_some.2 rfl)]

/-! ## What is written -/

theorem toList_text_of_bare (h : u.ns = "") : u.text.toList = u.value.toList := by
  rw [text, if_pos (by simp [h])]

theorem toList_text_of_full (h : ':' ∈ u.ns.toList) :
    u.text.toList = u.ns.toList ++ '#' :: u.value.toList := by
  have hne : u.ns ≠ "" := by
    rintro h'
    rw [h'] at h
    cases h
  simp [text, hne, h]

theorem toList_text_of_prefixed (hne : u.ns ≠ "") (h : ':' ∉ u.ns.toList) :
    u.text.toList = u.ns.toList ++ ':' :: u.value.toList := by
  simp [text, hne, h]

/-- A namespace is followed by one of two marks, and neither is a slash. -/
theorem exists_toList_text (hns : u.ns ≠ "") :
    ∃ c ≠ '/', u.text.toList = u.ns.toList ++ c :: u.value.toList := by
  by_cases hfull : ':' ∈ u.ns.toList
  · exact ⟨'#', by decide, toList_text_of_full hfull⟩
  · exact ⟨':', by decide, toList_text_of_prefixed hns hfull⟩

/-- The text of a term is read as that term. -/
def Restored (u : Uri) : Prop :=
  let cs := u.text.toList
  Text.trim cs = cs ∧
    if u.ns = "" then
      IsMarked cs ∨ cs ≠ ['a'] ∧ bracketed? cs = none ∧ '#' ∉ cs ∧
        (Text.occursIn schemeMark cs ∨ ':' ∉ cs)
    else
      ¬ IsMarked cs ∧ bracketed? cs = none ∧ '#' ∉ u.value.toList ∧
        (':' ∈ u.ns.toList ∨ '#' ∉ u.ns.toList ∧ ¬ Text.occursIn schemeMark cs)

instance (u : Uri) : Decidable u.Restored := inferInstanceAs (Decidable (_ ∧ _))

/-! ## The characters of a term -/

/-- A text is made of the characters of a term and of marks.  A namespace takes at least one. -/
def Spelled (cs : List Char) (u : Uri) : Prop :=
  ∃ marks, cs.Perm (u.ns.toList ++ u.value.toList ++ marks) ∧ '/' ∉ marks ∧
    (u.ns ≠ "" → marks ≠ [])

theorem spelled_value (hns : u.ns = "") : Spelled u.value.toList u :=
  ⟨[], by simp [hns], List.not_mem_nil, fun h => absurd hns h⟩

theorem spelled_marked {c : Char} (hc : c ≠ '/') :
    Spelled (u.ns.toList ++ c :: u.value.toList) u := by
  refine ⟨[c], ?_, by simpa using hc.symm, fun _ => by simp⟩
  rw [List.append_assoc]
  exact (List.perm_append_singleton c u.value.toList).symm.append_left _

theorem spelled_text (u : Uri) : Spelled u.text.toList u := by
  by_cases hns : u.ns = ""
  · rw [toList_text_of_bare hns]
    exact spelled_value hns
  · obtain ⟨c, hc, hcs⟩ := exists_toList_text hns
    rw [hcs]
    exact spelled_marked hc

theorem spelled_ofFull (cs : List Char) : Spelled cs (ofFull cs) := by
  obtain ⟨-, hcs | ⟨hns, hcs⟩⟩ := ofFull_eq_iff.1 (rfl : ofFull cs = ofFull cs)
  · have h := spelled_marked (c := '#') (u := ofFull cs) (by decide)
    rwa [← hcs] at h
  · have h := spelled_value hns
    rwa [← hcs] at h

theorem spelled_ofName (cs : List Char) : Spelled cs (ofName cs) := by
  obtain ⟨-, hcs⟩ | ⟨hns, -, hcs⟩ := ofName_eq_iff.1 (rfl : ofName cs = ofName cs)
  · have h := spelled_marked (c := ':') (u := ofName cs) (by decide)
    rwa [← hcs] at h
  · have h := spelled_value hns
    rwa [← hcs] at h

theorem Spelled.brackets (h : Spelled cs u) : Spelled ('<' :: cs ++ ['>']) u := by
  obtain ⟨marks, hperm, hslash, hne⟩ := h
  refine ⟨'<' :: marks ++ ['>'], ?_, by simp [hslash], fun _ => by simp⟩
  have hmiddle : ('<' :: cs).Perm (u.ns.toList ++ u.value.toList ++ '<' :: marks) :=
    (hperm.cons '<').trans List.perm_middle.symm
  rw [← List.append_assoc]
  exact hmiddle.append_right ['>']

/-- Apart from the keyword, a text is made of the characters of the term it is read as. -/
theorem spelled_ofChars (ha : cs ≠ ['a']) : Spelled cs (ofChars cs) := by
  by_cases hm : IsMarked cs
  · rw [ofChars_of_marked hm]
    have h := spelled_value (u := ⟨"", String.ofList cs⟩) rfl
    rwa [String.toList_ofList] at h
  · cases hb : bracketed? cs with
    | some inner =>
      rw [ofChars_of_brackets hb, bracketed?_eq_some.1 hb]
      exact (spelled_ofFull inner).brackets
    | none =>
      rw [ofChars_of_plain ha hm hb]
      split
      · exact spelled_ofFull cs
      · exact spelled_ofName cs

/-- What is written for a term is the shortest of its spellings. -/
theorem Spelled.length_text_le (h : Spelled cs u) : u.text.toList.length ≤ cs.length := by
  obtain ⟨marks, hperm, -, hne⟩ := h
  have hlen := hperm.length_eq
  rw [List.length_append, List.length_append] at hlen
  by_cases hns : u.ns = ""
  · rw [toList_text_of_bare hns]
    omega
  · obtain ⟨c, -, hcs⟩ := exists_toList_text hns
    have hpos := List.length_pos_iff.2 (hne hns)
    rw [hcs, List.length_append, List.length_cons]
    omega

/-- All spellings of a term have the same number of slashes. -/
theorem Spelled.count_slash (h : Spelled cs u) :
    cs.count '/' = u.ns.toList.count '/' + u.value.toList.count '/' := by
  obtain ⟨marks, hperm, hslash, -⟩ := h
  rw [hperm.count_eq, List.count_append, List.count_append, List.count_eq_zero.2 hslash,
    Nat.add_zero]

/-! ## What is read of it -/

/-- A text that is read as the term it was written for has no white space around it. -/
theorem trim_text (h : ofTerm u.text = u) : Text.trim u.text.toList = u.text.toList := by
  by_cases ha : Text.trim u.text.toList = ['a']
  · rw [ofTerm, ha] at h
    subst h
    decide
  · refine Text.trim_eq_self_of_length_le ?_
    have hle := (spelled_ofChars ha).length_text_le
    rw [ofTerm] at h
    rwa [h] at hle

/-- What stands between brackets is too short to be read as the whole. -/
theorem ofChars_text_ne {inner : List Char} (hb : bracketed? u.text.toList = some inner) :
    ofChars u.text.toList ≠ u := by
  intro h
  rw [ofChars_of_brackets hb] at h
  have hle := (spelled_ofFull inner).length_text_le
  rw [h, bracketed?_eq_some.1 hb, List.length_append, List.length_cons] at hle
  omega

theorem ofChars_text_of_bare (hns : u.ns = "") : ofChars u.text.toList = u ↔
    IsMarked u.text.toList ∨ u.text.toList ≠ ['a'] ∧ bracketed? u.text.toList = none ∧
      '#' ∉ u.text.toList ∧ (Text.occursIn schemeMark u.text.toList ∨ ':' ∉ u.text.toList) := by
  have hcs := toList_text_of_bare hns
  by_cases hm : IsMarked u.text.toList
  · refine iff_of_true ?_ (.inl hm)
    rw [ofChars_of_marked hm, hcs, Uri.ext_iff]
    exact ⟨hns.symm, String.ofList_toList⟩
  · rw [or_iff_right hm]
    by_cases ha : u.text.toList = ['a']
    · refine iff_of_false ?_ fun h => h.1 ha
      rw [ha]
      rintro rfl
      exact absurd hns (by decide)
    · cases hb : bracketed? u.text.toList with
      | some inner => exact iff_of_false (ofChars_text_ne hb) fun h => nomatch h.2.1
      | none =>
        have hlong (c : Char) : u.value.toList ≠ u.ns.toList ++ c :: u.value.toList := fun h => by
          have := congrArg List.length h
          rw [List.length_append, List.length_cons] at this
          omega
        rw [ofChars_of_plain ha hm hb]
        rw [hcs] at ha hb ⊢
        split
        · next hfull =>
          rw [ofFull_eq_iff, or_iff_right (hlong '#')]
          exact ⟨fun h => ⟨ha, rfl, h.1, .inl (hfull.resolve_right h.1)⟩,
            fun h => ⟨h.2.2.1, hns, rfl⟩⟩
        · next hname =>
          obtain ⟨hscheme, hhash⟩ := not_or.1 hname
          rw [ofName_eq_iff]
          constructor
          · rintro (⟨-, h⟩ | ⟨-, h, -⟩)
            · exact absurd h (hlong ':')
            · exact ⟨ha, rfl, hhash, .inr h⟩
          · rintro ⟨-, -, -, h⟩
            exact .inr ⟨hns, h.resolve_left hscheme, rfl⟩

theorem ofChars_text_of_ns (hns : u.ns ≠ "") : ofChars u.text.toList = u ↔
    ¬ IsMarked u.text.toList ∧ bracketed? u.text.toList = none ∧ '#' ∉ u.value.toList ∧
      (':' ∈ u.ns.toList ∨ '#' ∉ u.ns.toList ∧ ¬ Text.occursIn schemeMark u.text.toList) := by
  by_cases hm : IsMarked u.text.toList
  · refine iff_of_false ?_ fun h => h.1 hm
    rw [ofChars_of_marked hm]
    exact fun h => hns (congrArg ns h).symm
  · have ha : u.text.toList ≠ ['a'] := by
      intro ha
      obtain ⟨c, -, hcs⟩ := exists_toList_text hns
      have hne : u.ns.toList ≠ [] := fun h => hns (String.toList_eq_nil_iff.1 h)
      obtain ⟨d, ds, hds⟩ := List.exists_cons_of_ne_nil hne
      rw [hcs, hds] at ha
      simp at ha
    cases hb : bracketed? u.text.toList with
    | some inner => exact iff_of_false (ofChars_text_ne hb) fun h => nomatch h.2.1
    | none =>
      rw [ofChars_of_plain ha hm hb]
      by_cases hfull : ':' ∈ u.ns.toList
      · have hcs := toList_text_of_full hfull
        rw [if_pos (.inr (by simp [hcs])), ofFull_eq_iff]
        exact ⟨fun h => ⟨hm, rfl, h.1, .inl hfull⟩, fun h => ⟨h.2.2.1, .inl hcs⟩⟩
      · have hcs := toList_text_of_prefixed hns hfull
        have hhash : '#' ∈ u.text.toList ↔ '#' ∈ u.ns.toList ∨ '#' ∈ u.value.toList := by
          simp [hcs]
        split
        · next hmark =>
          rw [ofFull_eq_iff]
          refine iff_of_false ?_ ?_
          · rintro ⟨-, h | ⟨h, -⟩⟩
            · rw [hcs] at h
              simp at h
            · exact hns h
          · rintro ⟨-, -, hvalue, h⟩
            obtain ⟨hnsHash, hscheme⟩ := h.resolve_left hfull
            rcases hmark with hmark | hmark
            · exact hscheme hmark
            · exact (hhash.1 hmark).elim hnsHash hvalue
        · next hmark =>
          obtain ⟨hscheme, hnone⟩ := not_or.1 hmark
          obtain ⟨hnsHash, hvalue⟩ := not_or.1 (mt hhash.2 hnone)
          rw [ofName_eq_iff]
          exact iff_of_true (.inl ⟨hfull, hcs⟩) ⟨hm, rfl, hvalue, .inr ⟨hnsHash, hscheme⟩⟩

/-- A term is read back from its text exactly if it is restored. -/
theorem ofTerm_text_iff : ofTerm u.text = u ↔ u.Restored := by
  have hread (h : Text.trim u.text.toList = u.text.toList) :
      ofTerm u.text = ofChars u.text.toList := by rw [ofTerm, h]
  rw [Restored]
  split
  · next hns =>
    rw [← ofChars_text_of_bare hns]
    exact ⟨fun h => ⟨trim_text h, hread (trim_text h) ▸ h⟩, fun h => (hread h.1).trans h.2⟩
  · next hns =>
    rw [← ofChars_text_of_ns hns]
    exact ⟨fun h => ⟨trim_text h, hread (trim_text h) ▸ h⟩, fun h => (hread h.1).trans h.2⟩

example : Restored ⟨"http://e/b", "x"⟩ := by decide
example : ¬ Restored ⟨"", "a"⟩ := by decide
example : ¬ Restored ⟨"", "urn:knows"⟩ := by decide

end TripleStore.Uri
