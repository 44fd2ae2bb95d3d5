import TripleStore.Fault
import TripleStore.Quantifier

/-!
# Patterns

A pattern is a subject, a path and an object.  Each of them may be a variable.
A path is written as predicates with `/` between them, each with a quantifier
after it.

A predicate may be a full term, and full terms hold slashes.  A slash between
`<` and `>` is part of the term.  A term without brackets that starts with a
scheme and `//` goes on to the first slash after its `#`, or to the end of the
path if it has no `#`.

A quantifier is read off the last character of a segment, unless that is its
only character.
-/

namespace TripleStore

/-- A predicate of a path and how many hops over it are meant. -/
@[ext]
structure PathStep where
  /-- The predicate. -/
  predicate : Uri
  /-- The number of hops. -/
  quantifier : Quantifier
deriving DecidableEq, Repr, Inhabited

/-- A statement any part of which may be a variable. -/
@[ext]
structure Pattern where
  /-- What the statement is about. -/
  subject : Uri
  /-- The path from the subject to the object. -/
  path : List PathStep
  /-- What the path leads to. -/
  object : Uri
deriving DecidableEq, Repr, Inhabited

namespace PathStep

/-! ## Reading a path -/

/-- The pieces of a path between the slashes that separate segments.  `bracketed`
holds between `<` and `>`, and `bare` inside a full term without brackets.
`piece` is the piece read so far, latest character first. -/
def pieces (bracketed bare : Bool) (piece : List Char) : List Char → List (List Char)
  | [] => [piece.reverse]
  | c :: cs =>
    if c = '<' then pieces true bare (c :: piece) cs
    else if c = '>' then pieces false bare (c :: piece) cs
    else if c = '/' && !bracketed then
      if bare then
        if piece.contains '#' then piece.reverse :: pieces bracketed false [] cs
        else pieces bracketed bare (c :: piece) cs
      else if piece.head? = some ':' && cs.head? = some '/' then
        pieces bracketed true (c :: piece) cs
      else piece.reverse :: pieces bracketed false [] cs
    else pieces bracketed bare (c :: piece) cs

/-- The pieces of a whole path. -/
def segments (cs : List Char) : List (List Char) := pieces false false [] cs

/-- Split the quantifier off a segment without white space around it. -/
def splitQuantifier (cs : List Char) : List Char × Quantifier :=
  match cs.getLast?.bind Quantifier.ofMark? with
  | some q => if 1 < cs.length then (cs.dropLast, q) else (cs, .single)
  | none => (cs, .single)

/-- Read one segment, or none if it has no predicate. -/
def ofSegment? (cs : List Char) : Option PathStep :=
  let (body, q) := splitQuantifier (Text.trim cs)
  if body.isEmpty then none else some ⟨Uri.ofTerm (String.ofList body), q⟩

/-- Read a path. -/
def ofPath (text : String) : Except Fault (List PathStep) :=
  match (segments text.toList).mapM ofSegment? with
  | some steps => .ok steps
  | none => .error (.emptySegment text)

/-! ## Writing a path -/

/-- A full term has to be written between brackets, as it may hold slashes. -/
def needsBrackets (u : Uri) : Bool :=
  u.ns.toList.contains ':' || Text.occursIn Uri.schemeMark u.value.toList

/-- A segment as written. -/
def text (s : PathStep) : String :=
  if needsBrackets s.predicate then "<" ++ s.predicate.text ++ ">" ++ s.quantifier.suffix
  else s.predicate.text ++ s.quantifier.suffix

end PathStep

namespace Pattern

/-- Read a pattern from its three parts. -/
def ofParts (subject path object : String) : Except Fault Pattern := do
  let steps ← PathStep.ofPath path
  return ⟨Uri.ofTerm subject, steps, Uri.ofTerm object⟩

/-- The path as written. -/
def pathText (p : Pattern) : String := String.intercalate "/" (p.path.map PathStep.text)

/-- The three parts of a pattern. -/
def parts (p : Pattern) : List String := [p.subject.text, p.pathText, p.object.text]

/-- A pattern as written on one line. -/
def text (p : Pattern) : String := String.intercalate " " p.parts

/-- The terms of a pattern, in the order in which they are written. -/
def terms (p : Pattern) : List Uri := p.subject :: p.path.map PathStep.predicate ++ [p.object]

/-- A name unless it is there already. -/
def addVariable (vars : List String) (var : String) : List String :=
  if var ∈ vars then vars else vars ++ [var]

/-- The variables of a pattern, each once, in the order of first occurrence. -/
def vars (p : Pattern) : List String :=
  ((p.terms.filter Uri.isVariable).map Uri.value).foldl addVariable []

end Pattern

end TripleStore
