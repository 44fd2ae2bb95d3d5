import TripleStore.Json.Value
import TripleStore.Proofs.Json.Reader

/-!
# Values as they are written

A value is written without white space, so what stands after it is a comma, the
end of what it is in, or nothing (`Closes`).  `Spells r cs o` says that with any
such continuation the reader `r` takes the text `cs` and no more of it, and
answers `o`, or stops if `o` is none.

Texts and numbers are spelled by what is written for them.  A sequence is spelled
by its items, and it is read if each of them is.
-/

namespace TripleStore.Json.Reader

variable {α β γ : Type}

/-- What may stand after a value. -/
def Closes (xs : List Char) : Prop := ∀ c ∈ xs.head?, c = ',' ∨ c = ']' ∨ c = '\x7d'

/-- A reader takes a text and no more, whatever closes it. -/
def Spells (r : Reader α) (cs : List Char) (o : Option α) : Prop :=
  ∀ xs, Closes xs → r.Goes (cs ++ xs) (o.map (·, xs))

/-- A text that starts a value. -/
def Opens (cs : List Char) : Prop := ∃ c ds, cs = c :: ds ∧ isSpace c = false ∧ c ≠ ']'

theorem closes_nil : Closes [] := nofun

theorem closes_comma (xs : List Char) : Closes (',' :: xs) := by
  rintro c ⟨⟩
  exact .inl rfl

theorem closes_array (xs : List Char) : Closes (']' :: xs) := by
  rintro c ⟨⟩
  exact .inr (.inl rfl)

theorem closes_object (xs : List Char) : Closes ('\x7d' :: xs) := by
  rintro c ⟨⟩
  exact .inr (.inr rfl)

theorem Spells.placed {r : Reader α} {cs : List Char} {o : Option α} (h : r.Spells cs o) :
    r.placed.Spells cs o :=
  fun xs hxs => (h xs hxs).placed

/-! ## Texts -/

/-- The two digits of a control character name its code point. -/
theorem hexQuad?_controlDigits : ∀ n < 0x20,
    hexQuad? '0' '0' (Nat.digitChar (n / 16)) (Nat.digitChar (n % 16)) = some n := by
  decide

theorem goes_unit {n : Nat} (hn : n < 0x20) (xs : List Char) :
    unit.Goes ('0' :: '0' :: controlDigits n ++ xs) (some (n, xs)) := by
  have hquad := hexQuad?_controlDigits n hn
  intro m
  have hget : (getThe Input : Reader Input).run ⟨'0' :: '0' :: controlDigits n ++ xs, m⟩ =
    (.ok ⟨'0' :: '0' :: controlDigits n ++ xs, m⟩, ⟨'0' :: '0' :: controlDigits n ++ xs, m⟩) := rfl
  refine ⟨m + 4, (run_bind_ok hget).trans ?_⟩
  simp only [controlDigits, List.cons_append, hquad]
  rfl

theorem goes_unitEscape {n : Nat} (hn : n < 0x20) (xs : List Char) :
    unitEscape.Goes ('0' :: '0' :: controlDigits n ++ xs) (some (Char.ofNat n, xs)) := by
  refine (goes_unit hn xs).bind ?_
  have htrailing : isTrailing n = false := by simp [isTrailing]; omega
  have hleading : isLeading n = false := by simp [isLeading]; omega
  rw [htrailing, hleading]
  exact goes_pure _ xs

/-- A character is read back from what is written for it. -/
theorem goes_textStep (done : List Char) (c : Char) (xs : List Char) :
    (textStep done).Goes (writeChar c ++ xs) (some (.inl (c :: done), xs)) := by
  unfold writeChar
  split
  · subst c
    exact fun n => ⟨_, rfl⟩
  split
  · subst c
    exact fun n => ⟨_, rfl⟩
  split
  · subst c
    exact fun n => ⟨_, rfl⟩
  split
  · subst c
    exact fun n => ⟨_, rfl⟩
  split
  · subst c
    exact fun n => ⟨_, rfl⟩
  split
  · subst c
    exact fun n => ⟨_, rfl⟩
  split
  · subst c
    exact fun n => ⟨_, rfl⟩
  split
  · next hc =>
    have hread := goes_unitEscape hc xs
    rw [Char.ofNat_toNat] at hread
    refine (goes_peek _).bind ((goes_advance '\\' _).bind ?_)
    refine Goes.bind ?_ (goes_pure _ xs)
    exact (goes_peek _).bind ((goes_advance 'u' _).bind hread)
  · next hquote hslash _ _ _ _ _ hc =>
    refine (goes_peek (c :: xs)).bind ?_
    dsimp only [List.head?_cons]
    split
    · next h => cases h
    · next h => exact absurd (Option.some.inj h) hquote
    · next h => exact absurd (Option.some.inj h) hslash
    · next h =>
      cases h
      rw [if_neg hc]
      exact (goes_advance c xs).bind (goes_pure _ xs)

theorem length_writeChar_pos (c : Char) : 0 < (writeChar c).length := by
  unfold writeChar
  repeat' split
  all_goals simp

/-- A text is read back up to its closing quote. -/
theorem goes_text (s : String) (xs : List Char) :
    text.Goes (s.toList.flatMap writeChar ++ '"' :: xs) (some (s, xs)) := by
  have hrepeats (cs done : List Char) : Repeats textStep done (cs.flatMap writeChar ++ '"' :: xs)
      (some (String.ofList (done.reverse ++ cs), xs)) := by
    induction cs generalizing done with
    | nil =>
      rw [List.append_nil]
      exact .done fun n => ⟨_, rfl⟩
    | cons c cs ih =>
      have ih := ih (c :: done)
      rw [List.reverse_cons, List.append_assoc] at ih
      rw [List.flatMap_cons, List.append_assoc]
      refine .more (goes_textStep done c _) ?_ ih
      have hlen := length_writeChar_pos c
      simp only [List.length_append]
      omega
  have h := (hrepeats s.toList []).goes
  rwa [List.reverse_nil, List.nil_append, String.ofList_toList] at h

theorem spells_text (s : String) : anyText.Spells (writeText s) (some s) := by
  refine Spells.placed fun xs _ => ?_
  have htext := goes_text s xs
  refine Goes.bind (goes_valueAhead (by decide) _) ?_
  rw [if_pos rfl]
  refine (goes_advance '"' _).bind ?_
  simpa [List.append_assoc] using htext

theorem opens_text (s : String) : Opens (writeText s) :=
  ⟨'"', _, rfl, by decide, by decide⟩

/-! ## Numbers -/

open Numeral in
theorem le_spell (acc : Nat) (ds : List Nat) : acc ≤ spell acc ds := by
  induction ds generalizing acc with
  | nil => exact Nat.le_refl acc
  | cons d ds ih => exact Nat.le_trans (by omega) (ih (acc * 10 + d))

open Numeral in
/-- All digits of a number that fits are collected. -/
theorem collect_eq {acc : Nat} {ds : List Nat} (h : spell acc ds < wordLimit) :
    collect acc ds = (spell acc ds, []) := by
  induction ds generalizing acc with
  | nil => rfl
  | cons d ds ih =>
    have hle := le_spell (acc * 10 + d) ds
    rw [collect, if_pos (Nat.lt_of_le_of_lt hle h)]
    exact ih h

/-- The digits that are written for a number spell it. -/
theorem spell_toDigits (n : Nat) : Numeral.spell 0 ((Nat.toDigits 10 n).map Numeral.digit) = n := by
  have h : Nat.ofDigitChars 10 (Nat.toDigits 10 n) 0 = n := Nat.ofDigitChars_ten_toDigits
  rw [Nat.ofDigitChars_eq_foldl] at h
  rw [Numeral.spell, List.foldl_map]
  simpa only [Numeral.digit, Nat.mul_comm] using h

theorem isDigit_of_mem_toDigits {n : Nat} {c : Char} (h : c ∈ Nat.toDigits 10 n) :
    c.isDigit = true :=
  Nat.isDigit_of_mem_toDigits (by decide) (by decide) h

theorem head?_toDigits_append (n : Nat) (xs : List Char) :
    (Nat.toDigits 10 n ++ xs).head? = (Nat.toDigits 10 n).head? := by
  obtain ⟨c, ds, h⟩ := List.exists_cons_of_ne_nil (Nat.toDigits_ne_nil (n := n) (b := 10))
  rw [h]
  rfl

/-- Only the number zero is written with a zero in front. -/
theorem eq_zero_of_head? {n : Nat} (h : (Nat.toDigits 10 n).head? = some '0') : n = 0 := by
  induction n using Nat.strongRecOn with
  | ind n ih =>
    by_cases hlt : n < 10
    · rw [Nat.toDigits_of_lt_base hlt] at h
      have hchar : ∀ n < 10, some (Nat.digitChar n) = some '0' → n = 0 := by decide
      exact hchar n hlt h
    · rw [Nat.toDigits_of_base_le (by decide) (by omega), head?_toDigits_append] at h
      have := ih (n / 10) (by omega) h
      omega

/-- What closes a value goes on with no numeral. -/
theorem Closes.ends {xs : List Char} (h : Closes xs) :
    ∀ c ∈ xs.head?, c.isDigit = false ∧ c ≠ '.' ∧ c ≠ 'e' ∧ c ≠ 'E' := by
  intro c hc
  rcases h c hc with rfl | rfl | rfl <;> decide

theorem Closes.takeWhile_digits {xs : List Char} (h : Closes xs) :
    xs.takeWhile Char.isDigit = [] ∧ xs.dropWhile Char.isDigit = xs := by
  cases xs with
  | nil => exact ⟨rfl, rfl⟩
  | cons c xs => simp [(h.ends c rfl).1]

theorem goes_digits {ds xs : List Char} (hds : ∀ c ∈ ds, c.isDigit = true) (hxs : Closes xs) :
    digits.Goes (ds ++ xs) (some (ds.map Numeral.digit, xs)) := by
  have htake : (ds ++ xs).takeWhile Char.isDigit = ds := by
    rw [List.takeWhile_append_of_pos hds, hxs.takeWhile_digits.1, List.append_nil]
  have hdrop : (ds ++ xs).dropWhile Char.isDigit = xs := by
    rw [List.dropWhile_append_of_pos hds, hxs.takeWhile_digits.2]
  refine fun n => ⟨n + ds.length, ?_⟩
  show (Except.ok (((ds ++ xs).takeWhile Char.isDigit).map Numeral.digit), Input.mk
    ((ds ++ xs).dropWhile Char.isDigit) (n + ((ds ++ xs).takeWhile Char.isDigit).length)) = _
  rw [htake, hdrop]

/-- The digits of a number are read up to what closes it. -/
theorem goes_wholeDigits (n : Nat) {xs : List Char} (hxs : Closes xs) (atEnd : Cause) :
    (wholeDigits atEnd).Goes (Nat.toDigits 10 n ++ xs)
      (some ((Nat.toDigits 10 n).map Numeral.digit, xs)) := by
  refine (goes_peek _).bind ?_
  rw [head?_toDigits_append]
  split
  · next hzero =>
    obtain rfl := eq_zero_of_head? hzero
    refine (goes_advance '0' xs).bind ((goes_peek xs).bind ?_)
    split
    · next c hc =>
      rw [(hxs.ends c hc).1]
      exact goes_pure _ xs
    · exact goes_pure _ xs
  · have hdigits := goes_digits (fun c hc => isDigit_of_mem_toDigits (n := n) hc) hxs
    refine (goes_peek _).bind ?_
    rw [head?_toDigits_append]
    split
    · next hc => exact absurd (List.head?_eq_none_iff.1 hc) Nat.toDigits_ne_nil
    · next c hc =>
      rw [if_pos (isDigit_of_mem_toDigits (List.mem_of_head? hc))]
      exact hdigits

theorem goes_numeral (n : Nat) {xs : List Char} (hxs : Closes xs) (atEnd : Cause) :
    (numeral atEnd).Goes (Nat.toDigits 10 n ++ xs)
      (some (⟨false, (Nat.toDigits 10 n).map Numeral.digit, none, none⟩, xs)) := by
  refine (goes_peek _).bind ?_
  have hsign : ((Nat.toDigits 10 n ++ xs).head? = some '-') = False := by
    rw [head?_toDigits_append]
    exact eq_false fun h => absurd (isDigit_of_mem_toDigits (List.mem_of_head? h)) (by decide)
  have hpoint : (fraction atEnd).Goes xs (some (none, xs)) := by
    refine (goes_peek xs).bind ?_
    rw [if_neg fun h : xs.head? = some '.' => (hxs.ends '.' h).2.1 rfl]
    exact goes_pure none xs
  have hexponent : (exponent atEnd).Goes xs (some (none, xs)) := by
    refine (goes_peek xs).bind ?_
    rw [if_neg]
    · exact goes_pure none xs
    · rw [Bool.or_eq_true, decide_eq_true_iff, decide_eq_true_iff]
      rintro (h | h)
      · exact (hxs.ends 'e' h).2.2.1 rfl
      · exact (hxs.ends 'E' h).2.2.2 rfl
  simp only [hsign, decide_false]
  exact Goes.bind (goes_wholeDigits n hxs atEnd) (hpoint.bind (hexponent.bind (goes_pure _ xs)))

/-- What a digit starts is neither white space nor the end of an array. -/
theorem opens_toDigits (n : Nat) : Opens (Nat.toDigits 10 n) := by
  obtain ⟨c, ds, h⟩ := List.exists_cons_of_ne_nil (Nat.toDigits_ne_nil (n := n) (b := 10))
  have hc : c.isDigit = true :=
    isDigit_of_mem_toDigits (n := n) (by rw [h]; exact List.mem_cons_self)
  refine ⟨c, ds, h, ?_, ?_⟩
  · refine Bool.eq_false_iff.2 fun hspace => ?_
    simp only [isSpace, Bool.or_eq_true, decide_eq_true_iff] at hspace
    rcases hspace with ((rfl | rfl) | rfl) | rfl <;> exact absurd hc (by decide)
  · rintro rfl
    exact absurd hc (by decide)

theorem spells_word64 (v : UInt64) : word64.Spells (Nat.toDigits 10 v.toNat) (some v) := by
  refine Spells.placed fun xs hxs => ?_
  obtain ⟨c, ds, hcs, hspace, -⟩ := opens_toDigits v.toNat
  have hc : c.isDigit = true :=
    isDigit_of_mem_toDigits (n := v.toNat) (by rw [hcs]; exact List.mem_cons_self)
  have hnumber : number.Goes (Nat.toDigits 10 v.toNat ++ xs) (some (.natural v.toNat, xs)) := by
    refine (goes_numeral v.toNat hxs _).bind ?_
    have hvalue : Numeral.value? ⟨false, (Nat.toDigits 10 v.toNat).map Numeral.digit, none, none⟩ =
        some (.natural v.toNat) := by
      have hfits := v.toNat_lt
      rw [← spell_toDigits v.toNat] at hfits
      simp only [Numeral.value?, collect_eq hfits, spell_toDigits]
      rfl
    rw [hvalue]
    exact goes_pure _ xs
  have hahead : valueAhead.Goes (Nat.toDigits 10 v.toNat ++ xs)
      (some (c, Nat.toDigits 10 v.toNat ++ xs)) := by
    rw [hcs]
    exact goes_valueAhead hspace (ds ++ xs)
  refine hahead.bind ?_
  have hstarts : startsNumber c = true := by simp [startsNumber, hc]
  rw [if_pos hstarts]
  refine hnumber.bind ?_
  show (pure (UInt64.ofNat v.toNat) : Reader UInt64).Goes xs _
  have hword : UInt64.ofNat v.toNat = v := UInt64.ofNat_toNat
  rw [hword]
  exact goes_pure v xs

/-! ## Sequences -/

variable {item : Reader α} {cs : List Char} {o : Option α}

theorem commaSeparated_cons (cs : List Char) (css : List (List Char)) :
    commaSeparated (cs :: css) = cs ++ css.flatMap (',' :: ·) := by
  induction css generalizing cs with
  | nil => simp [commaSeparated]
  | cons ds css ih => rw [commaSeparated, ih, List.flatMap_cons, List.cons_append]

theorem goes_afterOpens (h : Opens cs) (xs : List Char) :
    ∃ c, c ≠ ']' ∧ afterSpaces.Goes (cs ++ xs) (some (some c, cs ++ xs)) := by
  obtain ⟨c, ds, rfl, hspace, hne⟩ := h
  exact ⟨c, hne, goes_afterSpaces hspace (ds ++ xs)⟩

theorem goes_nextItem_first (h : Opens cs) (xs : List Char) :
    (nextItem true).Goes (cs ++ xs) (some (true, cs ++ xs)) := by
  obtain ⟨c, hne, hafter⟩ := goes_afterOpens h xs
  refine hafter.bind ?_
  split
  · next h => cases h
  · next h => exact absurd (Option.some.inj h) hne
  · exact goes_pure true _

theorem goes_nextItem_next (h : Opens cs) (xs : List Char) :
    (nextItem false).Goes (',' :: cs ++ xs) (some (true, cs ++ xs)) := by
  obtain ⟨c, hne, hafter⟩ := goes_afterOpens h xs
  refine (goes_afterSpaces (by decide) (cs ++ xs)).bind ((goes_advance ',' (cs ++ xs)).bind ?_)
  refine hafter.bind ?_
  split
  · next h => cases h
  · next h => exact absurd (Option.some.inj h) hne
  · exact goes_pure true _

theorem goes_nextItem_end (first : Bool) (xs : List Char) :
    (nextItem first).Goes (']' :: xs) (some (false, ']' :: xs)) :=
  (goes_afterSpaces (by decide) xs).bind (goes_pure false _)

theorem goes_endArray (xs : List Char) : endArray.Goes (']' :: xs) (some ((), xs)) :=
  (goes_afterSpaces (by decide) xs).bind (goes_advance ']' xs)

/-- An array is spelled by what its body takes, between brackets. -/
theorem spells_array {expected : String}
    (h : ∀ xs, item.Goes (cs ++ ']' :: xs) (o.map (·, ']' :: xs))) :
    (array expected item).Spells ('[' :: cs ++ [']']) o := by
  refine Spells.placed fun xs _ => ?_
  have hcs : '[' :: cs ++ [']'] ++ xs = '[' :: (cs ++ ']' :: xs) := by simp
  rw [hcs]
  refine (goes_valueAhead (by decide) _).bind ?_
  rw [if_pos rfl]
  refine (goes_advance '[' _).bind ?_
  cases o with
  | none => exact (h xs).within_none
  | some a => exact (h xs).within (goes_endArray xs)

/-- The step that `items` repeats. -/
def itemStep (item : Reader α) (done : List α) : Reader (List α ⊕ List α) := do
  if ← nextItem done.isEmpty then return .inl ((← item) :: done)
  else return .inr done.reverse

theorem goes_itemStep {done : List α} {xs ys : List Char}
    (hnext : (nextItem done.isEmpty).Goes ys (some (true, cs ++ xs)))
    (hitem : item.Goes (cs ++ xs) (o.map (·, xs))) :
    (itemStep item done).Goes ys (o.map fun a => (.inl (a :: done), xs)) := by
  refine hnext.bind ?_
  cases o with
  | none => exact hitem.bind_none
  | some a => exact Goes.bind hitem (goes_pure _ xs)

theorem goes_itemStep_end (done : List α) (xs : List Char) :
    (itemStep item done).Goes (']' :: xs) (some (.inr done.reverse, ']' :: xs)) :=
  (goes_nextItem_end done.isEmpty xs).bind (goes_pure _ _)

variable {written : β → List Char} {read : β → Option α} {b : β} {bs : List β}

/-- The rest of a repetition that took one more item. -/
theorem Repeats.more_item {done : List α} {xs ys zs : List Char}
    (hnext : (nextItem done.isEmpty).Goes ys (some (true, cs ++ xs))) (hlen : xs.length < ys.length)
    (hitem : item.Goes (cs ++ xs) ((read b).map (·, xs)))
    (hrest : ∀ a, Repeats (itemStep item) (a :: done) xs
      ((bs.mapM read).map fun as => ((a :: done).reverse ++ as, zs))) :
    Repeats (itemStep item) done ys
      (((b :: bs).mapM read).map fun as => (done.reverse ++ as, zs)) := by
  have hstep := goes_itemStep hnext hitem
  rw [List.mapM_cons]
  cases hb : read b with
  | none =>
    rw [hb] at hstep
    exact .stop hstep
  | some a =>
    rw [hb] at hstep
    refine .more hstep hlen ?_
    have hrest := hrest a
    cases hbs : bs.mapM read with
    | none =>
      rw [hbs] at hrest
      exact hrest
    | some as =>
      rw [hbs] at hrest
      simpa using hrest

theorem closes_items (css : List (List Char)) (xs : List Char) :
    Closes (css.flatMap (',' :: ·) ++ ']' :: xs) := by
  cases css with
  | nil => exact closes_array xs
  | cons cs css => exact closes_comma _

/-- The items after the first, each behind a comma. -/
theorem repeats_items (hread : ∀ b ∈ bs, item.Spells (written b) (read b))
    (hopens : ∀ b ∈ bs, Opens (written b)) {done : List α} (hdone : done.isEmpty = false)
    (xs : List Char) :
    Repeats (itemStep item) done ((bs.map written).flatMap (',' :: ·) ++ ']' :: xs)
      ((bs.mapM read).map fun as => (done.reverse ++ as, ']' :: xs)) := by
  induction bs generalizing done with
  | nil =>
    have hend : (itemStep item done).Goes (']' :: xs)
        (some (.inr (done.reverse ++ []), ']' :: xs)) := by
      rw [List.append_nil]
      exact goes_itemStep_end done xs
    exact .done hend
  | cons b bs ih =>
    have hnext := goes_nextItem_next (hopens b List.mem_cons_self)
      ((bs.map written).flatMap (',' :: ·) ++ ']' :: xs)
    rw [← hdone] at hnext
    have htext : ((b :: bs).map written).flatMap (',' :: ·) ++ ']' :: xs =
        ',' :: written b ++ ((bs.map written).flatMap (',' :: ·) ++ ']' :: xs) := by simp
    rw [htext]
    refine .more_item hnext ?_ (hread b List.mem_cons_self _ (closes_items _ xs)) fun a =>
      ih (fun b hb => hread b (List.mem_cons_of_mem _ hb))
        (fun b hb => hopens b (List.mem_cons_of_mem _ hb)) rfl
    simp only [List.length_append, List.length_cons]
    omega

/-- A sequence is spelled by its items, and is read if each of them is. -/
theorem spells_list (hread : ∀ b ∈ bs, item.Spells (written b) (read b))
    (hopens : ∀ b ∈ bs, Opens (written b)) :
    (list item).Spells ('[' :: commaSeparated (bs.map written) ++ [']']) (bs.mapM read) := by
  refine spells_array fun xs => ?_
  have hrepeats : Repeats (itemStep item) [] (commaSeparated (bs.map written) ++ ']' :: xs)
      ((bs.mapM read).map fun as => (([] : List α).reverse ++ as, ']' :: xs)) := by
    cases bs with
    | nil => exact .done (goes_itemStep_end [] xs)
    | cons b bs =>
      have hopen := hopens b List.mem_cons_self
      rw [List.map_cons, commaSeparated_cons, List.append_assoc]
      refine .more_item (goes_nextItem_first hopen _) ?_
        (hread b List.mem_cons_self _ (closes_items _ xs)) fun a =>
        repeats_items (fun b hb => hread b (List.mem_cons_of_mem _ hb))
          (fun b hb => hopens b (List.mem_cons_of_mem _ hb)) rfl xs
      obtain ⟨c, ds, hcs, -⟩ := hopen
      simp only [hcs, List.length_append, List.length_cons]
      omega
  exact hrepeats.goes

theorem writeItems_eq_map (js : List Json) : writeItems js = js.map write := by
  induction js with
  | nil => rfl
  | cons j js ih => rw [writeItems, ih, List.map_cons]

theorem write_array (js : List Json) :
    write (.array js) = '[' :: commaSeparated (js.map write) ++ [']'] := by
  rw [write, writeItems_eq_map]

theorem spells_texts (ss : List String) : (list anyText).Spells (write (ofTexts ss)) (some ss) := by
  have h : (list anyText).Spells ('[' :: commaSeparated (ss.map writeText) ++ [']'])
      (ss.mapM some) := spells_list (fun s _ => spells_text s) fun s _ => opens_text s
  have hread : ss.mapM (some : String → Option String) = some ss := by
    have := List.mapM_pure (m := Option) (l := ss) (f := id)
    rwa [List.map_id] at this
  rw [ofTexts, write_array, List.map_map]
  rwa [hread] at h

/-- An item that is due is read if it is there. -/
theorem goes_due {first : Bool} {cause : Cause} {xs ys : List Char} {p : Option (α × List Char)}
    (hnext : (nextItem first).Goes xs (some (true, ys))) (h : item.Goes ys p) :
    (nextItem first >>= fun more => if more then item else stop cause).Goes xs p :=
  hnext.bind h

/-- A sequence of three values is spelled by the three. -/
theorem spells_triple {as bs cs : List Char} {a b c : α} (ha : item.Spells as (some a))
    (hb : item.Spells bs (some b)) (hc : item.Spells cs (some c)) (hoa : Opens as) (hob : Opens bs)
    (hoc : Opens cs) :
    (triple item).Spells ('[' :: commaSeparated [as, bs, cs] ++ [']']) (some (a, b, c)) := by
  refine spells_array fun xs => ?_
  have htext : commaSeparated [as, bs, cs] ++ ']' :: xs =
      as ++ (',' :: bs ++ (',' :: cs ++ ']' :: xs)) := by simp [commaSeparated]
  rw [htext]
  refine Goes.bind (goes_due (goes_nextItem_first hoa _) (ha _ (closes_comma _))) ?_
  refine Goes.bind (goes_due (goes_nextItem_next hob _) (hb _ (closes_comma _))) ?_
  refine Goes.bind (goes_due (goes_nextItem_next hoc _) (hc _ (closes_array xs))) ?_
  exact goes_pure (a, b, c) _

/-! ## Values that may be missing -/

theorem spells_null : (orNull item).Spells (write .null) (some none) :=
  fun _ _ => fun n => ⟨n + 4, rfl⟩

theorem spells_orNull {a : α} (h : item.Spells cs (some a)) (hopens : Opens cs)
    (hnull : cs.head? ≠ some 'n') : (orNull item).Spells cs (some (some a)) := by
  intro xs hxs
  obtain ⟨c, ds, rfl, hspace, -⟩ := hopens
  have hne : ¬some c = some 'n' := hnull
  refine (goes_afterSpaces hspace (ds ++ xs)).bind ?_
  rw [if_neg hne]
  exact Goes.bind (h xs hxs) (goes_pure (some a) xs)

/-! ## Fields -/

variable {σ : Type} {step : σ → String → Reader σ} {s : σ} {t : Option σ} {name : String}

/-- The step that `fields` repeats. -/
def fieldStep (step : σ → String → Reader σ) (p : Bool × σ) : Reader ((Bool × σ) ⊕ σ) := do
  match ← nextName p.1 with
  | none => return .inr p.2
  | some name => return .inl (false, ← step p.2 name)

theorem goes_name (name : String) (xs : List Char) :
    (do advance; return some (← text) : Reader (Option String)).Goes (writeText name ++ xs)
      (some (some name, xs)) := by
  have hname : writeText name ++ xs = '"' :: (name.toList.flatMap writeChar ++ '"' :: xs) := by
    simp [writeText]
  rw [hname]
  exact (goes_advance '"' _).bind (Goes.bind (goes_text name xs) (goes_pure _ xs))

theorem goes_nextName_first (name : String) (xs : List Char) :
    (nextName true).Goes (writeText name ++ xs) (some (some name, xs)) :=
  (goes_afterSpaces (by decide) _).bind (goes_name name xs)

theorem goes_nextName_next (name : String) (xs : List Char) :
    (nextName false).Goes (',' :: writeText name ++ xs) (some (some name, xs)) := by
  refine (goes_afterSpaces (by decide) _).bind ((goes_advance ',' _).bind ?_)
  exact (goes_afterSpaces (by decide) _).bind (goes_name name xs)

theorem goes_nextName_end (first : Bool) (xs : List Char) :
    (nextName first).Goes ('\x7d' :: xs) (some (none, '\x7d' :: xs)) :=
  (goes_afterSpaces (by decide) xs).bind (goes_pure none _)

theorem goes_endObject (xs : List Char) : endObject.Goes ('\x7d' :: xs) (some ((), xs)) :=
  (goes_afterSpaces (by decide) xs).bind (goes_advance '\x7d' xs)

theorem Repeats.no_field (first : Bool) (s : σ) (xs : List Char) :
    Repeats (fieldStep step) (first, s) ('\x7d' :: xs) (some (s, '\x7d' :: xs)) :=
  .done ((goes_nextName_end first xs).bind (goes_pure (Sum.inr s) _))

/-- A field is read from its name on, and then the fields after it. -/
theorem Repeats.more_field {first : Bool} {xs ys : List Char} {p : σ → Option (σ × List Char)}
    (hnext : (nextName first).Goes xs (some (some name, cs ++ ys))) (hlen : ys.length < xs.length)
    (hvalue : (step s name).Spells cs t) (hys : Closes ys)
    (hrest : ∀ s' ∈ t, Repeats (fieldStep step) (false, s') ys (p s')) :
    Repeats (fieldStep step) (first, s) xs (t.bind p) := by
  have hstep := hvalue ys hys
  cases t with
  | none => exact .stop (hnext.bind hstep.bind_none)
  | some s' => exact .more (hnext.bind (Goes.bind hstep (goes_pure _ ys))) hlen (hrest s' rfl)

theorem Repeats.first_field {ys : List Char} {p : σ → Option (σ × List Char)}
    (hvalue : (step s name).Spells cs t) (hys : Closes ys)
    (hrest : ∀ s' ∈ t, Repeats (fieldStep step) (false, s') ys (p s')) :
    Repeats (fieldStep step) (true, s) (writeText name ++ (cs ++ ys)) (t.bind p) := by
  refine .more_field (goes_nextName_first name _) ?_ hvalue hys hrest
  simp only [writeText, List.length_append, List.length_cons]
  omega

theorem Repeats.next_field {ys : List Char} {p : σ → Option (σ × List Char)}
    (hvalue : (step s name).Spells cs t) (hys : Closes ys)
    (hrest : ∀ s' ∈ t, Repeats (fieldStep step) (false, s') ys (p s')) :
    Repeats (fieldStep step) (false, s) (',' :: writeText name ++ (cs ++ ys)) (t.bind p) := by
  refine .more_field (goes_nextName_next name _) ?_ hvalue hys hrest
  simp only [writeText, List.length_append, List.length_cons]
  omega

/-- A slot that was not filled before takes the value of its field. -/
theorem spells_fill {slot : Option α} (hslot : slot = none) (update : Option α → β)
    (h : item.Spells cs o) :
    (fill name slot item >>= fun a => pure (update a)).Spells (':' :: cs)
      (o.map fun a => update (some a)) := by
  intro xs hxs
  subst slot
  have hcolon : colon.Goes (':' :: cs ++ xs) (some ((), cs ++ xs)) :=
    (goes_afterSpaces (by decide) (cs ++ xs)).bind (goes_advance ':' (cs ++ xs))
  have hvalue : (valueOf item).Goes (':' :: cs ++ xs) (o.map (·, xs)) := hcolon.bind (h xs hxs)
  have hfill : (fill name none item).Goes (':' :: cs ++ xs) (o.map fun a => (some a, xs)) := by
    have := hvalue.bind_map (g := some) (f := fun a => pure (some a)) fun _ => rfl
    rwa [Option.map_map] at this
  have hupdate := hfill.bind_map (g := update) (f := fun a => pure (update a)) fun _ => rfl
  rw [Option.map_map] at hupdate
  rwa [Option.map_map]

/-- A record written as an object is spelled by its fields, between braces. -/
theorem spells_record {expected : String} {body : Reader α}
    (h : ∀ xs, item.Goes (cs ++ '\x7d' :: xs) (o.map (·, '\x7d' :: xs))) :
    (record expected body item).Spells ('\x7b' :: cs ++ ['\x7d']) o := by
  refine Spells.placed fun xs _ => ?_
  have hcs : '\x7b' :: cs ++ ['\x7d'] ++ xs = '\x7b' :: (cs ++ '\x7d' :: xs) := by simp
  rw [hcs]
  refine (goes_valueAhead (by decide) _).bind ((goes_advance '\x7b' _).bind ?_)
  cases o with
  | none => exact (h xs).within_none
  | some a => exact (h xs).within (goes_endObject xs)

end TripleStore.Json.Reader
