import TripleStore.Proofs.Json.Written
import TripleStore.Proofs.Outcome
import TripleStore.Query.Basic

/-!
# Queries read back

A query is written as the object of its four fields.  The names in it and the
time are read as they were.  A pattern is read from its three parts again, and
that may give another pattern, or fail.
-/

namespace TripleStore

open Json Json.Reader

/-- A pattern as it is read from what is written for it, if it is. -/
def Pattern.reread (p : Pattern) : Option Pattern :=
  (Pattern.ofParts p.subject.text p.pathText p.object.text).toOption

namespace Query

/-- A pattern is spelled by its three parts, and is what they stand for. -/
theorem spells_pattern (p : Pattern) :
    readPattern.Spells (write (ofTexts p.parts)) p.reread := by
  have htriple := spells_triple (spells_text p.subject.text) (spells_text p.pathText)
    (spells_text p.object.text) (opens_text _) (opens_text _) (opens_text _)
  intro xs hxs
  refine Goes.bind (htriple xs hxs) ?_
  dsimp only [Pattern.reread]
  cases Pattern.ofParts p.subject.text p.pathText p.object.text with
  | error e => exact goes_stop _ xs
  | ok p => exact goes_pure p xs

/-- The value of a time. -/
def versionJson (v : Option UInt64) : Json :=
  match v with
  | some v => .natural v.toNat
  | none => .null

/-- The value of patterns. -/
def patternsJson (ps : List Pattern) : Json := .array (ps.map fun p => ofTexts p.parts)

theorem spells_version (v : Option UInt64) :
    readVersion.Spells (write (versionJson v)) (some v) := by
  cases v with
  | none => exact spells_null
  | some v =>
    refine spells_orNull (spells_word64 v) (opens_toDigits v.toNat) fun h => ?_
    exact absurd (isDigit_of_mem_toDigits (List.mem_of_head? h)) (by decide)

theorem spells_patterns (ps : List Pattern) :
    readPatterns.Spells (write (patternsJson ps)) (ps.mapM Pattern.reread) := by
  rw [patternsJson, write_array, List.map_map]
  refine spells_list (fun p _ => spells_pattern p) fun p _ => ?_
  exact ⟨'[', _, rfl, by decide, by decide⟩

/-- The fields of a query as they are written. -/
def fieldsText (q : Query) : List Char :=
  commaSeparated (writeFields
    [("select", ofTexts q.select), ("graphs", ofTexts q.graphs),
     ("version", versionJson q.version), ("where", patternsJson q.patterns)])

theorem fieldsText_append (q : Query) (xs : List Char) : q.fieldsText ++ xs =
    writeText "select" ++ (':' :: write (ofTexts q.select) ++
      (',' :: writeText "graphs" ++ (':' :: write (ofTexts q.graphs) ++
      (',' :: writeText "version" ++ (':' :: write (versionJson q.version) ++
      (',' :: writeText "where" ++ (':' :: write (patternsJson q.patterns) ++ xs))))))) := by
  simp [fieldsText, writeFields, commaSeparated]

/-- The four fields are read one after the other. -/
theorem goes_fields (q : Query) (xs : List Char) :
    (fields readField {}).Goes (q.fieldsText ++ '\x7d' :: xs)
      ((q.patterns.mapM Pattern.reread).map fun ps =>
        (⟨some q.select, some q.graphs, some q.version, some ps⟩, '\x7d' :: xs)) := by
  -- what is known of the query after each of the first three fields
  let d₁ : Draft := { select := some q.select }
  let d₂ : Draft := { d₁ with graphs := some q.graphs }
  let d₃ : Draft := { d₂ with version := some q.version }
  have hselect : (readField {} "select").Spells (':' :: write (ofTexts q.select)) (some d₁) := by
    show (fill "select" none readNames >>= fun s => pure ({ select := s } : Draft)).Spells _ _
    exact spells_fill rfl _ (spells_texts q.select)
  have hgraphs : (readField d₁ "graphs").Spells (':' :: write (ofTexts q.graphs)) (some d₂) := by
    show (fill "graphs" none readNames >>= fun s => pure { d₁ with graphs := s }).Spells _ _
    exact spells_fill rfl _ (spells_texts q.graphs)
  have hversion : (readField d₂ "version").Spells (':' :: write (versionJson q.version))
      (some d₃) := by
    show (fill "version" none readVersion >>= fun s => pure { d₂ with version := s }).Spells _ _
    exact spells_fill rfl _ (spells_version q.version)
  have hwhere : (readField d₃ "where").Spells (':' :: write (patternsJson q.patterns))
      ((q.patterns.mapM Pattern.reread).map fun ps => { d₃ with patterns := some ps }) := by
    show (fill "where" none readPatterns >>= fun s => pure { d₃ with patterns := s }).Spells _ _
    exact spells_fill rfl _ (spells_patterns q.patterns)
  have hlast : Repeats (fieldStep readField) (false, d₃)
      (',' :: writeText "where" ++ (':' :: write (patternsJson q.patterns) ++ '\x7d' :: xs))
      ((q.patterns.mapM Pattern.reread).map fun ps =>
        ({ d₃ with patterns := some ps }, '\x7d' :: xs)) := by
    have h := Repeats.next_field hwhere (closes_object xs) fun d _ => .no_field false d xs
    rw [Option.bind_map] at h
    rw [Option.map_eq_bind]
    exact h
  rw [fieldsText_append]
  refine (Repeats.first_field (p := fun _ => _) hselect (closes_comma _) ?_).goes
  rintro _ ⟨⟩
  refine .next_field (p := fun _ => _) hgraphs (closes_comma _) ?_
  rintro _ ⟨⟩
  refine .next_field (p := fun _ => _) hversion (closes_comma _) ?_
  rintro _ ⟨⟩
  exact hlast

/-- A query is spelled by its fields, and its patterns are what they stand for. -/
theorem spells_query (q : Query) : read.Spells (write q.toJson)
    ((q.patterns.mapM Pattern.reread).map fun ps => { q with patterns := ps }) := by
  refine spells_record fun xs => ?_
  have hfields := goes_fields q xs
  cases hps : q.patterns.mapM Pattern.reread with
  | none =>
    rw [hps] at hfields
    exact hfields.bind_none
  | some ps =>
    rw [hps] at hfields
    exact Goes.bind hfields (goes_pure { q with patterns := ps } _)

/-- A query comes back from its text if each of its patterns does. -/
theorem ofText_toText_iff (q : Query) :
    ofText q.toText = .ok q ↔ ∀ p ∈ q.patterns, p.reread = some p := by
  have hgoes := spells_query q [] closes_nil
  have htext : write q.toJson ++ [] = q.toText.toList := by
    rw [List.append_nil, toText, render, String.toList_ofList]
  rw [htext] at hgoes
  have hread : read.ofText q.toText = .ok q ↔
      (q.patterns.mapM Pattern.reread).map (fun ps => { q with patterns := ps }) = some q :=
    ofText_eq_ok hgoes
  have hquery : ofText q.toText = .ok q ↔ read.ofText q.toText = .ok q := by
    unfold ofText
    cases read.ofText q.toText with
    | error e => exact ⟨nofun, nofun⟩
    | ok q' => exact ⟨fun h => congrArg _ (Except.ok.inj h), fun h => congrArg _ (Except.ok.inj h)⟩
  have hsame : q.patterns.mapM Pattern.reread = some q.patterns ↔
      ∀ p ∈ q.patterns, p.reread = some p := mapM_eq_some.trans List.forall₂_same
  rw [hquery, hread, Option.map_eq_some_iff, ← hsame]
  constructor
  · rintro ⟨ps, hps, hq⟩
    rw [hps, ← congrArg patterns hq]
  · intro h
    exact ⟨q.patterns, h, rfl⟩

end Query

end TripleStore
