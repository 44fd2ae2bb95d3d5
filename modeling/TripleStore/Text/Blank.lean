/-!
# White space, lines and trimming

Terms, statements and path segments are delimited by white space.  The class is
the one Unicode names `White_Space`, 25 code points, which is larger than the
class of `Char.isWhitespace`.

Text is read as a list of characters.  A line ends at a line feed.  A carriage
return before the line feed is white space, so trimming a line removes it and no
rule of its own is needed.

`trim_eq_self` says when trimming changes nothing, and `trim_blanks_append`
that white space around a text is lost.
-/

namespace TripleStore.Text

/-! ## The class -/

/-- The code points of `White_Space`, as closed ranges. -/
def blankRanges : List (Nat × Nat) :=
  [(0x09, 0x0D), (0x20, 0x20), (0x85, 0x85), (0xA0, 0xA0), (0x1680, 0x1680), (0x2000, 0x200A),
   (0x2028, 0x2029), (0x202F, 0x202F), (0x205F, 0x205F), (0x3000, 0x3000)]

/-- Decide whether a character is white space. -/
def isBlank (c : Char) : Bool :=
  blankRanges.any fun r => r.1 ≤ c.toNat && c.toNat ≤ r.2

/-- The class holds 25 code points. -/
example : (blankRanges.map fun r => r.2 - r.1 + 1).sum = 25 := by decide

/-! ## Trimming -/

/-- A text without the white space it ends in. -/
def trimEnd (cs : List Char) : List Char :=
  (cs.reverse.dropWhile isBlank).reverse

/-- A text without the white space around it. -/
def trim (cs : List Char) : List Char :=
  trimEnd (cs.dropWhile isBlank)

theorem dropWhile_blanks_append {bs : List Char} (hb : ∀ c ∈ bs, isBlank c = true)
    (cs : List Char) : (bs ++ cs).dropWhile isBlank = cs.dropWhile isBlank := by
  induction bs with
  | nil => rfl
  | cons b bs ih =>
    have hb0 : isBlank b = true := hb b (by simp)
    simp only [List.cons_append, List.dropWhile_cons, hb0, if_true]
    exact ih fun c hc => hb c (by simp [hc])

theorem dropWhile_eq_self {cs : List Char} (h : ∀ c ∈ cs.head?, isBlank c = false) :
    cs.dropWhile isBlank = cs := by
  cases cs with
  | nil => rfl
  | cons c cs => simp [h c (by simp)]

theorem trimEnd_append_blanks {bs : List Char} (hb : ∀ c ∈ bs, isBlank c = true)
    (cs : List Char) : trimEnd (cs ++ bs) = trimEnd cs := by
  simp only [trimEnd, List.reverse_append]
  rw [dropWhile_blanks_append]
  simpa using hb

theorem trimEnd_eq_self {cs : List Char} (h : ∀ c ∈ cs.getLast?, isBlank c = false) :
    trimEnd cs = cs := by
  rw [trimEnd, dropWhile_eq_self, List.reverse_reverse]
  simpa [List.head?_reverse] using h

/-- A text that neither starts nor ends in white space is left alone. -/
theorem trim_eq_self {cs : List Char} (hs : ∀ c ∈ cs.head?, isBlank c = false)
    (he : ∀ c ∈ cs.getLast?, isBlank c = false) : trim cs = cs := by
  rw [trim, dropWhile_eq_self hs, trimEnd_eq_self he]

/-- White space around a text is lost. -/
theorem trim_blanks_append {as bs : List Char} (ha : ∀ c ∈ as, isBlank c = true)
    (hb : ∀ c ∈ bs, isBlank c = true) {cs : List Char}
    (hs : ∀ c ∈ cs.head?, isBlank c = false) (he : ∀ c ∈ cs.getLast?, isBlank c = false)
    (hne : cs ≠ []) : trim (as ++ cs ++ bs) = cs := by
  rw [trim, List.append_assoc, dropWhile_blanks_append ha, dropWhile_eq_self,
    trimEnd_append_blanks hb, trimEnd_eq_self he]
  cases cs with
  | nil => exact absurd rfl hne
  | cons c cs => simpa using hs

/-! ## Pieces -/

/-- The pieces of a text between the separators.  There is one piece more than
there are separators. -/
def pieces (sep : Char → Bool) (cs : List Char) : List (List Char) :=
  cs.foldr
    (fun c ps =>
      if sep c then [] :: ps
      else match ps with
        | [] => [[c]]
        | p :: ps => (c :: p) :: ps)
    [[]]

/-- The lines of a text, without their line feeds.  A text that ends in a line
feed has an empty last line, which no reader minds. -/
def lines (cs : List Char) : List (List Char) :=
  pieces (· == '\n') cs

/-- The parts of a text before and after the first character of a class, or none. -/
def splitFirst (p : Char → Bool) (cs : List Char) : Option (List Char × List Char) :=
  match cs.dropWhile (fun c => !p c) with
  | [] => none
  | _ :: after => some (cs.takeWhile (fun c => !p c), after)

/-- The parts of a text before and after the last character of a class, or none. -/
def splitLast (p : Char → Bool) (cs : List Char) : Option (List Char × List Char) :=
  (splitFirst p cs.reverse).map fun s => (s.2.reverse, s.1.reverse)

/-- Decide whether one text occurs in another. -/
def occursIn (needle : List Char) : List Char → Bool
  | [] => needle.isEmpty
  | c :: cs => needle.isPrefixOf (c :: cs) || occursIn needle cs

example : trim " \u3000a b\u0085".toList = "a b".toList := by decide
example : lines "a\n\nb".toList = ["a".toList, [], "b".toList] := by decide
example : splitLast (· == '#') "a#b#c".toList = some ("a#b".toList, "c".toList) := by decide

end TripleStore.Text
