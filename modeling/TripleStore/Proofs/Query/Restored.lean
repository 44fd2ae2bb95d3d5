import TripleStore.Proofs.Outcome
import TripleStore.Proofs.Query.Segments
import TripleStore.Proofs.Query.Written
import TripleStore.Proofs.Uri

/-!
# Which queries come back from their text

A step of a path is written between brackets if its predicate has to be, and
with the mark of its quantifier.  `PathStep.Restored` says when that is read as
the step it was.  It is not, for one, if the namespace is empty and the value has
a colon but no scheme, as no bracket is written then, and what stands before the
colon is taken for a prefix.

A path is cut at slashes, and its steps have slashes of their own.  If a path
comes back, then it was cut where it was joined.  For a step has the slashes
of the piece it is read from, unless that piece is the keyword `a`, which stands
for a longer term.  So the first piece is the text of the first step, and the
pieces after it are those of the other steps.
-/

namespace TripleStore

namespace PathStep

variable {s : PathStep} {cs body : List Char} {c : Char}

/-! ## Quantifiers -/

/-- A text ends in the mark of a quantifier, and has more than that. -/
def EndsInMark (cs : List Char) : Prop :=
  1 < cs.length ∧ ∃ c ∈ cs.getLast?, (Quantifier.ofMark? c).isSome

theorem splitQuantifier_of_not (h : ¬ EndsInMark cs) : splitQuantifier cs = (cs, .single) := by
  unfold splitQuantifier
  split
  · next q hq =>
    obtain ⟨c, hc, hmark⟩ := Option.bind_eq_some_iff.1 hq
    rw [if_neg fun hlen => h ⟨hlen, c, hc, by simp [hmark]⟩]
  · rfl

theorem splitQuantifier_mark {q : Quantifier} (hne : cs ≠ [])
    (hc : Quantifier.ofMark? c = some q) : splitQuantifier (cs ++ [c]) = (cs, q) := by
  have hlen : 1 < (cs ++ [c]).length := by
    have := List.length_pos_of_ne_nil hne
    simp
    omega
  simp only [splitQuantifier, List.getLast?_concat, Option.bind_some, hc, if_pos hlen,
    List.dropLast_concat]

theorem splitQuantifier_concat (hc : Quantifier.ofMark? c = none) :
    splitQuantifier (cs ++ [c]) = (cs ++ [c], .single) := by
  simp [splitQuantifier, hc]

/-- A text that ends in a mark is one with that mark behind it. -/
theorem EndsInMark.exists_mark (h : EndsInMark cs) :
    ∃ ds c q, cs = ds ++ [c] ∧ ds ≠ [] ∧ Quantifier.ofMark? c = some q := by
  obtain ⟨hlen, c, hc, hmark⟩ := h
  obtain ⟨ds, rfl⟩ := List.getLast?_eq_some_iff.1 hc
  obtain ⟨q, hq⟩ := Option.isSome_iff_exists.1 hmark
  refine ⟨ds, c, q, rfl, ?_, hq⟩
  rintro rfl
  exact absurd hlen (by simp)

theorem mark_cases {q : Quantifier} (h : Quantifier.ofMark? c = some q) :
    c = '?' ∨ c = '+' ∨ c = '*' := by
  unfold Quantifier.ofMark? at h
  split at h
  · exact .inl rfl
  · exact .inr (.inl rfl)
  · exact .inr (.inr rfl)
  · cases h

theorem ofMark?_ne_single {q : Quantifier} (h : Quantifier.ofMark? c = some q) :
    q ≠ .single ∧ Text.isBlank c = false := by
  unfold Quantifier.ofMark? at h
  split at h <;> cases h <;> exact ⟨nofun, by decide⟩

/-- The mark of a quantifier, if it has one. -/
theorem suffix_cases (q : Quantifier) : q = .single ∧ q.suffix.toList = [] ∨
    ∃ c, q.suffix.toList = [c] ∧ Quantifier.ofMark? c = some q := by
  cases q with
  | single => exact .inl ⟨rfl, rfl⟩
  | zeroOne => exact .inr ⟨'?', rfl, rfl⟩
  | onePlus => exact .inr ⟨'+', rfl, rfl⟩
  | zeroPlus => exact .inr ⟨'*', rfl, rfl⟩

theorem ofSegment?_of_split {q : Quantifier} (h : splitQuantifier (Text.trim cs) = (body, q))
    (hne : body ≠ []) : ofSegment? cs = some ⟨Uri.ofTerm (String.ofList body), q⟩ := by
  simp [ofSegment?, h, hne]

theorem ofSegment?_of_empty (h : Text.trim cs = []) : ofSegment? cs = none := by
  simp [ofSegment?, h, splitQuantifier]

/-- The mark of a quantifier is no slash and no bracket. -/
theorem plain_suffix (q : Quantifier) :
    ∀ c ∈ q.suffix.toList, c ≠ '/' ∧ c ≠ '<' ∧ c ≠ '>' := by
  intro c hc
  rcases suffix_cases q with ⟨-, hsuffix⟩ | ⟨d, hsuffix, hd⟩
  · rw [hsuffix] at hc
    cases hc
  · rw [hsuffix, List.mem_singleton] at hc
    subst hc
    rcases mark_cases hd with rfl | rfl | rfl <;> decide

/-! ## Steps -/

/-- The text of a step is read as that step. -/
def Restored (s : PathStep) : Prop :=
  if needsBrackets s.predicate then
    '#' ∉ s.predicate.value.toList ∧ (s.predicate.ns = "" ∨ ':' ∈ s.predicate.ns.toList)
  else
    s.predicate.Restored ∧ s.predicate.text.toList ≠ [] ∧
      (s.quantifier = .single → ¬ EndsInMark s.predicate.text.toList)

instance (cs : List Char) : Decidable (EndsInMark cs) := inferInstanceAs (Decidable (_ ∧ _))

instance (s : PathStep) : Decidable s.Restored :=
  inferInstanceAs (Decidable (if needsBrackets s.predicate then _ ∧ _ else _ ∧ _ ∧ _))

theorem toList_text_of_brackets (h : needsBrackets s.predicate = true) :
    s.text.toList = '<' :: s.predicate.text.toList ++ '>' :: s.quantifier.suffix.toList := by
  simp [text, h]

theorem toList_text_of_plain (h : needsBrackets s.predicate = false) :
    s.text.toList = s.predicate.text.toList ++ s.quantifier.suffix.toList := by
  simp [text, h]

theorem ofSegment?_text_of_brackets (h : needsBrackets s.predicate = true) :
    ofSegment? s.text.toList = some ⟨Uri.ofFull s.predicate.text.toList, s.quantifier⟩ := by
  rw [toList_text_of_brackets h, ← Uri.ofTerm_brackets]
  refine ofSegment?_of_split ?_ (by simp)
  rcases suffix_cases s.quantifier with ⟨hq, hsuffix⟩ | ⟨c, hsuffix, hc⟩
  · rw [hsuffix, hq, Uri.trim_opened _ (by decide)]
    exact splitQuantifier_concat rfl
  · have htext : '<' :: s.predicate.text.toList ++ '>' :: [c] =
        '<' :: (s.predicate.text.toList ++ ['>']) ++ [c] := by simp
    rw [hsuffix, htext, Uri.trim_opened _ (ofMark?_ne_single hc).2]
    exact splitQuantifier_mark (by simp) hc

/-- White space around a text is no part of the term. -/
theorem ofTerm_ofList_eq {t : String} (h : Text.trim cs = Text.trim t.toList) :
    Uri.ofTerm (String.ofList cs) = Uri.ofTerm t := by
  rw [Uri.ofTerm, String.toList_ofList, h, Uri.ofTerm]

theorem some_step_inj {u v : Uri} {q : Quantifier} :
    (some ⟨u, q⟩ : Option PathStep) = some ⟨v, q⟩ ↔ u = v := by
  simp

/-- A step over a predicate without brackets, with a mark. -/
theorem ofSegment?_mark_iff {q : Quantifier} {u : Uri} (hc : Quantifier.ofMark? c = some q) :
    ofSegment? (u.text.toList ++ [c]) = some ⟨u, q⟩ ↔ u.Restored ∧ u.text.toList ≠ [] := by
  obtain ⟨hq, hblank⟩ := ofMark?_ne_single hc
  have htrim := Text.trim_concat hblank u.text.toList
  by_cases hempty : u.text.toList.dropWhile Text.isBlank = []
  · -- The mark is all there is of the segment, so it is a predicate.
    refine iff_of_false ?_ ?_
    · have hsplit : splitQuantifier (Text.trim (u.text.toList ++ [c])) = ([c], .single) := by
        rw [htrim, hempty]
        exact splitQuantifier_of_not fun h => absurd h.1 (Nat.lt_irrefl 1)
      rw [ofSegment?_of_split hsplit (by simp)]
      exact fun h => hq (congrArg quantifier (Option.some.inj h)).symm
    · rintro ⟨hu, hne⟩
      refine hne ?_
      rw [← hu.1, Text.trim, hempty]
      rfl
  · have hne : u.text.toList ≠ [] := fun h => hempty (by rw [h]; rfl)
    rw [ofSegment?_of_split (htrim ▸ splitQuantifier_mark hempty hc) hempty,
      ofTerm_ofList_eq (Text.trim_dropWhile _), some_step_inj, ← Uri.ofTerm_text_iff,
      and_iff_left hne]

/-- A step of one hop over a predicate without brackets. -/
theorem ofSegment?_single_iff {u : Uri} : ofSegment? u.text.toList = some ⟨u, .single⟩ ↔
    u.Restored ∧ u.text.toList ≠ [] ∧ ¬ EndsInMark u.text.toList := by
  by_cases hempty : Text.trim u.text.toList = []
  · rw [ofSegment?_of_empty hempty]
    exact iff_of_false nofun fun h => h.2.1 (h.1.1 ▸ hempty)
  · by_cases hmark : EndsInMark (Text.trim u.text.toList)
    · refine iff_of_false ?_ fun h => h.2.2 (h.1.1 ▸ hmark)
      obtain ⟨ds, c, q, hds, hne, hc⟩ := hmark.exists_mark
      rw [ofSegment?_of_split (hds ▸ splitQuantifier_mark hne hc) hne]
      exact fun h => (ofMark?_ne_single hc).1 (congrArg quantifier (Option.some.inj h))
    · rw [ofSegment?_of_split (splitQuantifier_of_not hmark) hempty,
        ofTerm_ofList_eq (Text.trim_trim _), some_step_inj, ← Uri.ofTerm_text_iff]
      constructor
      · intro hu
        have htrim := (Uri.ofTerm_text_iff.1 hu).1
        exact ⟨hu, htrim ▸ hempty, htrim ▸ hmark⟩
      · exact fun h => h.1

/-- A term between brackets is read as it was if it has no other `#`. -/
theorem ofFull_text_iff {u : Uri} : Uri.ofFull u.text.toList = u ↔
    '#' ∉ u.value.toList ∧ (u.ns = "" ∨ ':' ∈ u.ns.toList) := by
  rw [Uri.ofFull_eq_iff]
  refine and_congr_right fun _ => ?_
  by_cases hns : u.ns = ""
  · exact iff_of_true (.inr ⟨hns, Uri.toList_text_of_bare hns⟩) (.inl hns)
  · by_cases hfull : ':' ∈ u.ns.toList
    · exact iff_of_true (.inl (Uri.toList_text_of_full hfull)) (.inr hfull)
    · refine iff_of_false ?_ (by simp [hns, hfull])
      rintro (h | h)
      · simp [Uri.toList_text_of_prefixed hns hfull] at h
      · exact hns h.1

/-- A step is read back from its text exactly if it is restored. -/
theorem ofSegment?_text_iff : ofSegment? s.text.toList = some s ↔ s.Restored := by
  obtain ⟨u, q⟩ := s
  rw [Restored]
  split
  · next h =>
    rw [ofSegment?_text_of_brackets h, some_step_inj]
    exact ofFull_text_iff
  · next h =>
    rw [toList_text_of_plain (by simpa using h)]
    rcases suffix_cases q with ⟨hq, hsuffix⟩ | ⟨c, hsuffix, hc⟩
    · subst hq
      have hsingle (P : Prop) : P ↔ (Quantifier.single = .single → P) :=
        ⟨fun h _ => h, fun h => h rfl⟩
      rw [hsuffix, List.append_nil, ofSegment?_single_iff]
      exact and_congr_right' (and_congr_right' (hsingle _))
    · have hmark (P : Prop) : q = .single → P := fun h => absurd h (ofMark?_ne_single hc).1
      rw [hsuffix, ofSegment?_mark_iff hc, and_iff_left (hmark _)]

example : Restored ⟨⟨"", "http://e/knows"⟩, .onePlus⟩ := by decide
example : ¬ Restored ⟨⟨"", "urn:a/knows"⟩, .single⟩ := by decide

/-! ## Slashes -/

theorem count_text (s : PathStep) :
    s.text.toList.count '/' = s.predicate.text.toList.count '/' := by
  have hsuffix : s.quantifier.suffix.toList.count '/' = 0 := by
    cases s.quantifier <;> decide
  cases h : needsBrackets s.predicate with
  | false => rw [toList_text_of_plain h, List.count_append, hsuffix, Nat.add_zero]
  | true =>
    rw [toList_text_of_brackets h]
    simp [hsuffix]

/-- What is read of a segment has all its characters but white space and a mark. -/
theorem count_splitQuantifier (hblank : Text.isBlank c = false)
    (hmark : Quantifier.ofMark? c = none) (cs : List Char) :
    (Text.trim (splitQuantifier (Text.trim cs)).1).count c = cs.count c := by
  rw [Text.count_trim hblank]
  by_cases h : EndsInMark (Text.trim cs)
  · obtain ⟨ds, d, q, hds, hne, hd⟩ := h.exists_mark
    have hcd : d ≠ c := by
      rintro rfl
      rw [hmark] at hd
      cases hd
    have hcount := Text.count_trim hblank cs
    rw [hds, List.count_append, List.count_singleton] at hcount
    rw [hds, splitQuantifier_mark hne hd, ← hcount]
    simp [hcd]
  · rw [splitQuantifier_of_not h, Text.count_trim hblank]

theorem eq_of_ofSegment? (h : ofSegment? cs = some s) :
    s.predicate = Uri.ofChars (Text.trim (splitQuantifier (Text.trim cs)).1) := by
  simp only [ofSegment?] at h
  split at h
  · exact nomatch h
  · have hs := congrArg predicate (Option.some.inj h)
    rw [← hs, Uri.ofTerm, String.toList_ofList]

/-- A segment has the slashes of what is written for its step, or it is the keyword, for which a
term between brackets is written. -/
theorem count_of_ofSegment? (h : ofSegment? cs = some s) :
    cs.count '/' = s.text.toList.count '/' ∨ '<' ∉ cs ∧ s.text.toList.head? = some '<' := by
  have hs := eq_of_ofSegment? h
  by_cases ha : Text.trim (splitQuantifier (Text.trim cs)).1 = ['a']
  · refine .inr ⟨?_, ?_⟩
    · have hcount := count_splitQuantifier (c := '<') (by decide) (by decide) cs
      rw [ha] at hcount
      rw [← List.count_eq_zero, ← hcount]
      decide
    · rw [ha] at hs
      have hbrackets : needsBrackets s.predicate = true := by
        rw [hs]
        decide
      rw [toList_text_of_brackets hbrackets]
      rfl
  · refine .inl ?_
    rw [count_text, (Uri.spelled_text s.predicate).count_slash, hs,
      ← (Uri.spelled_ofChars ha).count_slash, count_splitQuantifier (by decide) (by decide)]

/-! ## Paths -/

theorem append_slash_inj {as bs ds es : List Char} (h : as ++ '/' :: ds = bs ++ '/' :: es)
    (hcount : as.count '/' = bs.count '/') : as = bs ∧ ds = es := by
  induction as generalizing bs with
  | nil =>
    cases bs with
    | nil => exact ⟨rfl, (List.cons.inj h).2⟩
    | cons b bs =>
      cases (List.cons.inj h).1
      simp at hcount
  | cons a as ih =>
    cases bs with
    | nil =>
      cases (List.cons.inj h).1
      simp at hcount
    | cons b bs =>
      obtain ⟨rfl, htail⟩ := List.cons.inj h
      rw [List.count_cons, List.count_cons] at hcount
      obtain ⟨rfl, rfl⟩ := ih htail (Nat.add_right_cancel hcount)
      exact ⟨rfl, rfl⟩

/-- Pieces that make up the text of a path are the texts of the steps they are read as. -/
theorem pieces_eq_texts {ps : List (List Char)} {steps : List PathStep}
    (hread : List.Forall₂ (fun cs s => ofSegment? cs = some s) ps steps)
    (hjoin : ['/'].intercalate ps = ['/'].intercalate (steps.map fun s => s.text.toList)) :
    ps = steps.map fun s => s.text.toList := by
  induction hread with
  | nil => rfl
  | @cons cs s ps steps hs hrest ih =>
    cases hrest with
    | nil => simpa using hjoin
    | @cons cs' s' ps steps hs' hrest =>
      simp only [List.map_cons, List.intercalate_cons_cons, List.append_assoc,
        List.singleton_append] at hjoin ih
      have hcount : cs.count '/' = s.text.toList.count '/' := by
        rcases count_of_ofSegment? hs with h | ⟨hmem, hhead⟩
        · exact h
        · -- The text of the keyword starts with a bracket, and the piece has none.
          obtain ⟨ds, hds⟩ := List.head?_eq_some_iff.1 hhead
          rw [hds] at hjoin
          cases cs with
          | nil => cases (List.cons.inj hjoin).1
          | cons c cs =>
            cases (List.cons.inj hjoin).1
            exact absurd List.mem_cons_self hmem
      obtain ⟨rfl, htail⟩ := append_slash_inj hjoin hcount
      rw [List.map_cons, List.map_cons, ih htail]

theorem Restored.text_ne_nil (h : s.Restored) : s.text.toList ≠ [] := fun hempty => by
  have hread := ofSegment?_text_iff.2 h
  rw [ofSegment?_of_empty (by rw [hempty]; rfl)] at hread
  cases hread

/-- A path is read back from its text exactly if it is cut where it was joined and each step is
read back. -/
theorem ofPath_text_iff_segments (path : List PathStep) :
    ofPath (String.intercalate "/" (path.map text)) = .ok path ↔ (∀ s ∈ path, s.Restored) ∧
      segments (['/'].intercalate (path.map fun s => s.text.toList)) =
        path.map fun s => s.text.toList := by
  have htext : (String.intercalate "/" (path.map text)).toList =
      ['/'].intercalate (path.map fun s => s.text.toList) := by
    rw [String.toList_intercalate, List.map_map]
    rfl
  have hread : ofPath (String.intercalate "/" (path.map text)) = .ok path ↔
      (segments (['/'].intercalate (path.map fun s => s.text.toList))).mapM ofSegment? =
        some path := by
    unfold ofPath
    rw [htext]
    cases (segments (['/'].intercalate (path.map fun s => s.text.toList))).mapM ofSegment? <;> simp
  have hself : (path.map fun s => s.text.toList).mapM ofSegment? = some path ↔
      ∀ s ∈ path, s.Restored := by
    rw [mapM_eq_some, List.forall₂_map_left_iff, List.forall₂_same]
    simp only [ofSegment?_text_iff]
  rw [hread, ← hself]
  constructor
  · intro h
    have hpieces : segments (['/'].intercalate (path.map fun s => s.text.toList)) =
        path.map fun s => s.text.toList := by
      refine pieces_eq_texts (mapM_eq_some.1 h) ?_
      rw [segments, intercalate_pieces]
      rfl
    exact ⟨hpieces ▸ h, hpieces⟩
  · rintro ⟨h, hpieces⟩
    rwa [hpieces]

/-- A path is read back from its text exactly if each of its steps is, and is one segment that
ends where it should. -/
theorem ofPath_text_iff (path : List PathStep) :
    ofPath (String.intercalate "/" (path.map text)) = .ok path ↔
      path ≠ [] ∧ (∀ s ∈ path, s.Restored) ∧
        (∀ s ∈ path.dropLast, EndsAtSlash s.text.toList) ∧
        ∀ s ∈ path.getLast?, IsSegment s.text.toList := by
  rw [ofPath_text_iff_segments]
  cases path with
  | nil => exact iff_of_false (fun h => nomatch h.2) fun h => h.1 rfl
  | cons s path =>
    rw [and_iff_right (List.cons_ne_nil s path)]
    refine and_congr_right fun hsteps => ?_
    have hne : ∀ t ∈ (s :: path).map (fun s => s.text.toList), t ≠ [] := by
      rw [List.forall_mem_map]
      exact fun s hs => (hsteps s hs).text_ne_nil
    rw [List.map_cons] at hne ⊢
    rw [segments_intercalate_iff hne, ← List.map_cons (f := fun s : PathStep => s.text.toList),
      ← List.map_dropLast, List.getLast?_map, List.forall_mem_map]
    simp

end PathStep

/-- The three parts of a pattern are read as that pattern. -/
structure Pattern.Restored (p : Pattern) : Prop where
  /-- The subject is read back. -/
  subject : p.subject.Restored
  /-- The object is read back. -/
  object : p.object.Restored
  /-- There is a path. -/
  nonempty : p.path ≠ []
  /-- Each step is read back. -/
  steps : ∀ s ∈ p.path, s.Restored
  /-- Each step but the last is cut off by the slash behind it. -/
  cuts : ∀ s ∈ p.path.dropLast, PathStep.EndsAtSlash s.text.toList
  /-- The last step is not cut. -/
  last : ∀ s ∈ p.path.getLast?, PathStep.IsSegment s.text.toList

theorem Pattern.reread_eq_some {p : Pattern} : p.reread = some p ↔ p.Restored := by
  obtain ⟨a, steps, b⟩ := p
  have hpath := PathStep.ofPath_text_iff steps
  constructor
  · intro h
    obtain ⟨path, hread, h⟩ := bind_eq_ok.mp (eq_ok_of_toOption h)
    injection Except.ok.inj h with ha hsteps hb
    subst hsteps
    obtain ⟨hne, hsteps, hcuts, hlast⟩ := hpath.1 hread
    exact ⟨Uri.ofTerm_text_iff.1 ha, Uri.ofTerm_text_iff.1 hb, hne, hsteps, hcuts, hlast⟩
  · rintro ⟨ha, hb, hne, hsteps, hcuts, hlast⟩
    have hread := hpath.2 ⟨hne, hsteps, hcuts, hlast⟩
    rw [reread, ofParts, pathText, hread, Uri.ofTerm_text_iff.2 ha, Uri.ofTerm_text_iff.2 hb]
    rfl

/-- A query is read back from its text exactly if each of its patterns is restored. -/
theorem Query.ofText_toText_iff_restored (q : Query) :
    Query.ofText q.toText = .ok q ↔ ∀ p ∈ q.patterns, p.Restored := by
  rw [Query.ofText_toText_iff]
  exact forall₂_congr fun p _ => Pattern.reread_eq_some

end TripleStore
