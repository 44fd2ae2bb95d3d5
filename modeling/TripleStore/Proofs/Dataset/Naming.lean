import TripleStore.Cursor
import TripleStore.Dataset.Turtle
import TripleStore.Proofs.Outcome

/-!
# The same name in data and in queries

A data file and a query write terms alike, but they expand them by different
rules.  The reader of a data file looks at how a term is written.  It expands
prefixed names, and leaves alone what is written in full.  A query has no such
choice, as a term no longer tells how it was written.  There any term is expanded
whose namespace is a prefix.

So both agree on prefixed names.  They disagree on a term in full exactly if its
namespace is also a prefix of another namespace, as the empty namespace of a
literal is where the empty prefix is declared.
-/

namespace TripleStore

namespace Dataset.Turtle

/-- A term between brackets or quotes, the keyword `a`, or a term with a scheme. -/
def WrittenInFull (cs : List Char) : Prop :=
  cs.head? = some '<' ∨ cs.head? = some '"' ∨ cs = ['a'] ∨
    Text.occursIn Uri.schemeMark cs = true

instance (cs : List Char) : Decidable (WrittenInFull cs) :=
  inferInstanceAs (Decidable (_ ∨ _))

variable {declared : Namespaces} {cs : List Char} {u : Uri}

/-- A term in full is read whatever the prefixes are. -/
theorem readTerm_of_full (h : WrittenInFull cs) :
    readTerm declared cs = .ok (Uri.ofTerm (String.ofList cs)) := by
  simp only [WrittenInFull] at h
  simp [readTerm, h, or_assoc]

/-- Any other term that is read has a prefix, which is expanded as it is in a query. -/
theorem readTerm_of_prefixed (h : ¬ WrittenInFull cs) (hr : readTerm declared cs = .ok u) :
    u = (Uri.ofTerm (String.ofList cs)).expand declared := by
  simp only [WrittenInFull, not_or] at h
  simp only [readTerm] at hr
  split at hr
  · next hfull => simp [h] at hfull
  · split at hr
    · cases hr
    · split at hr
      · next ns hns =>
        cases hr
        rw [Uri.expand, hns]
      · cases hr

end Dataset.Turtle

/-- A term is left alone exactly if its namespace is no prefix of another namespace. -/
theorem Uri.expand_eq_self {declared : Namespaces} {u : Uri} :
    u.expand declared = u ↔ ∀ ns, lookupNamespace? declared u.ns = some ns → ns = u.ns := by
  rw [expand]
  cases lookupNamespace? declared u.ns with
  | none => simp
  | some ns => simp [Uri.ext_iff]

/-- A term that a data file has is the same term in a query, unless it is written in full and its
namespace is also a prefix of another namespace. -/
theorem Cursor.expand_ofTerm_iff {c : Cursor} {cs : List Char} {u : Uri}
    (h : Dataset.Turtle.readTerm c.namespaces cs = .ok u) :
    c.expand (Uri.ofTerm (String.ofList cs)) = u ↔
      (Dataset.Turtle.WrittenInFull cs →
        ∀ ns, lookupNamespace? c.namespaces u.ns = some ns → ns = u.ns) := by
  by_cases hfull : Dataset.Turtle.WrittenInFull cs
  · rw [Dataset.Turtle.readTerm_of_full hfull] at h
    cases h
    rw [Cursor.expand, Uri.expand_eq_self]
    exact ⟨fun hns _ => hns, fun hns => hns hfull⟩
  · have hu := Dataset.Turtle.readTerm_of_prefixed hfull h
    exact iff_of_true hu.symm fun hf => absurd hf hfull

/-- A literal under a declaration of the empty prefix. -/
theorem Cursor.expand_ofTerm_iff_literal :
    let c := Cursor.new "g" 1 (Std.ExtTreeMap.ofList [("", "http://e")])
    let cs := "\"x\"".toList
    Dataset.Turtle.readTerm c.namespaces cs = .ok ⟨"", "\"x\""⟩ ∧
      (c.expand (Uri.ofTerm (String.ofList cs)) = ⟨"", "\"x\""⟩ ↔
        (Dataset.Turtle.WrittenInFull cs →
          ∀ ns, lookupNamespace? c.namespaces "" = some ns → ns = "")) ∧
      c.expand (Uri.ofTerm (String.ofList cs)) = ⟨"http://e", "\"x\""⟩ := by
  have hread : Dataset.Turtle.readTerm (Std.ExtTreeMap.ofList [("", "http://e")])
      "\"x\"".toList = .ok ⟨"", "\"x\""⟩ := eq_ok_of_toOption (by decide +kernel)
  exact ⟨hread, Cursor.expand_ofTerm_iff hread, by decide +kernel⟩

end TripleStore
