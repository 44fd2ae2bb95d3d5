import TripleStore.Text.Blank

/-!
# Terms

A *uri* is a term split into a namespace and a local value.  The split is at the
last `#`, so `http://e/b#x` is the value `x` in the namespace `http://e/b`.  A
term without a `#` has the empty namespace.  Variables `?x` and literals `"x"`
are terms too: they keep their mark or quotes in the value and have no
namespace.  A prefixed name `b:x` that is not expanded yet has its prefix as
namespace.

Two texts belong to a uri.  `text` is what a reader takes it back from, and
`hashInput` is what its checksum is taken over.  They differ for a prefixed
name, which is written with a colon and hashed with a `#`.

`Uri.compare_eq_iff` says that the order on terms tells them apart.
-/

namespace TripleStore

/-- A term: its namespace and its value in it. -/
@[ext]
structure Uri where
  /-- The part before the last `#`, or the prefix of a name not expanded yet, or nothing. -/
  ns : String
  /-- The rest of the term. -/
  value : String
deriving DecidableEq, Repr, Inhabited

namespace Uri

/-! ## Namespaces known without a declaration -/

/-- The namespace of `rdf`. -/
def rdfNamespace : String := "http://www.w3.org/1999/02/22-rdf-syntax-ns"

/-- The namespace of `owl`. -/
def owlNamespace : String := "http://www.w3.org/2002/07/owl"

/-- The namespace of `rdfs`. -/
def rdfsNamespace : String := "http://www.w3.org/2000/01/rdf-schema"

/-- The namespace of a prefix that needs no declaration. -/
def wellKnownNamespace? (name : String) : Option String :=
  if name = "rdf" then some rdfNamespace
  else if name = "rdfs" then some rdfsNamespace
  else if name = "owl" then some owlNamespace
  else none

/-- What the keyword `a` stands for. -/
def rdfType : Uri := ⟨rdfNamespace, "type"⟩

/-- The predicate that declares two properties to be each other's inverse. -/
def owlInverseOf : Uri := ⟨owlNamespace, "inverseOf"⟩

/-! ## Reading a term -/

/-- A full term split at its last `#`. -/
def ofFull (cs : List Char) : Uri :=
  match Text.splitLast (· == '#') cs with
  | some (before, after) => ⟨String.ofList before, String.ofList after⟩
  | none => ⟨"", String.ofList cs⟩

/-- What stands between `<` at the start of a text and `>` at its end. -/
def bracketed? : List Char → Option (List Char)
  | '<' :: cs => if cs.getLast? = some '>' then some cs.dropLast else none
  | _ => none

/-- A name split at its first colon.  A name without one is a value of its own. -/
def ofName (cs : List Char) : Uri :=
  match Text.splitFirst (· == ':') cs with
  | some (before, after) => ⟨String.ofList before, String.ofList after⟩
  | none => ⟨"", String.ofList cs⟩

/-- The mark of a full term written without brackets. -/
def schemeMark : List Char := [':', '/', '/']

/-- A term from its text, which has no white space around it. -/
def ofChars (cs : List Char) : Uri :=
  if cs = ['a'] then rdfType
  else if cs.head? = some '?' || cs.head? = some '"' then ⟨"", String.ofList cs⟩
  else match bracketed? cs with
    | some inner => ofFull inner
    | none =>
      if Text.occursIn schemeMark cs || cs.contains '#' then ofFull cs else ofName cs

/-- The term a text stands for in a data file or in a query.  White space around
it is no part of it. -/
def ofTerm (text : String) : Uri := ofChars (Text.trim text.toList)

/-! ## Writing a term -/

/-- A variable is a term without namespace whose value starts with `?`. -/
def isVariable (u : Uri) : Bool :=
  u.ns.isEmpty && u.value.toList.head? = some '?'

/-- The text the checksum of a term is taken over. -/
def hashInput (u : Uri) : String :=
  if u.ns.isEmpty then u.value else u.ns ++ "#" ++ u.value

/-- A term as written: with `#` after a full namespace, with `:` after a prefix. -/
def text (u : Uri) : String :=
  if u.ns.isEmpty then u.value
  else if u.ns.toList.contains ':' then u.ns ++ "#" ++ u.value
  else u.ns ++ ":" ++ u.value

/-! ## Order -/

instance : Ord Uri := ⟨compareLex (compareOn Uri.ns) (compareOn Uri.value)⟩

instance : Std.TransOrd Uri :=
  inferInstanceAs (Std.TransCmp (compareLex (compareOn Uri.ns) (compareOn Uri.value)))

theorem compare_eq_iff {u v : Uri} : compare u v = .eq ↔ u = v := by
  show compareLex (compareOn Uri.ns) (compareOn Uri.value) u v = .eq ↔ u = v
  rw [compareLex_eq_eq]
  simp [compareOn, Uri.ext_iff]

instance : Std.LawfulEqOrd Uri := ⟨compare_eq_iff.1⟩

example : ofTerm " http://e/b#x " = ⟨"http://e/b", "x"⟩ := by decide
example : ofTerm "b:x:y" = ⟨"b", "x:y"⟩ := by decide
example : ofTerm "<b:x>" = ⟨"", "b:x"⟩ := by decide

end Uri

/-! ## Triples -/

/-- A statement of a data file. -/
@[ext]
structure Triple where
  /-- What the statement is about. -/
  subject : Uri
  /-- The property it states. -/
  predicate : Uri
  /-- The value of the property. -/
  object : Uri
deriving DecidableEq, Repr, Inhabited

namespace Triple

/-- The terms of a statement. -/
def terms (t : Triple) : List Uri := [t.subject, t.predicate, t.object]

instance : Ord Triple :=
  ⟨compareLex (compareOn Triple.subject)
    (compareLex (compareOn Triple.predicate) (compareOn Triple.object))⟩

instance : Std.TransOrd Triple :=
  inferInstanceAs (Std.TransCmp (compareLex (compareOn Triple.subject)
    (compareLex (compareOn Triple.predicate) (compareOn Triple.object))))

theorem compare_eq_iff {s t : Triple} : compare s t = .eq ↔ s = t := by
  show compareLex (compareOn Triple.subject)
    (compareLex (compareOn Triple.predicate) (compareOn Triple.object)) s t = .eq ↔ s = t
  rw [compareLex_eq_eq, compareLex_eq_eq]
  simp [compareOn, Triple.ext_iff]

instance : Std.LawfulEqOrd Triple := ⟨compare_eq_iff.1⟩

end Triple

end TripleStore
