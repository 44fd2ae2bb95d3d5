import TripleStore.Dataset.Basic
import TripleStore.Fault

/-!
# Data files

A data file is read line by line.  A line holds a prefix declaration, a
statement, a comment after `#`, or nothing.  White space around a line does not
count.

A declaration is the word `prefix` in any case, with or without `@` before it,
then a name with a colon, then the namespace between `<` and `>`, and perhaps a
full stop.

A statement is three terms with white space between them and a full stop at the
end of the line.  A term is what stands between `<` and `>`, or else a run of
characters without white space.  An object may also be a literal, which reaches
from its opening quote to the last quote of the line and on to the next white
space.  A term that starts with `<` may be taken either way, and the first way in
which the whole line fits is the one that counts.

A line that is neither is skipped with a warning, and so is a statement with a
term that has no meaning.  Reading itself never fails.
-/

namespace TripleStore

namespace Dataset.Turtle

/-! ## Declarations -/

/-- The characters of the name of a prefix.  The two that are not ASCII are case
variants of `s` and `k`. -/
def isNameChar (c : Char) : Bool :=
  c.isAlphanum || c = '_' || c = '.' || c = '-' || c = '\u017F' || c = '\u212A'

/-- The text after a word, which may be written in any case. -/
def afterKeyword? : List Char → List Char → Option (List Char)
  | [], cs => some cs
  | _ :: _, [] => none
  | w :: ws, c :: cs => if c.toLower = w then afterKeyword? ws cs else none

/-- The text after white space, of which there has to be some. -/
def afterBlanks? : List Char → Option (List Char)
  | [] => none
  | c :: cs => if Text.isBlank c then some (cs.dropWhile Text.isBlank) else none

/-- What stands between `<` and the next `>`, and the text after that. -/
def bracketed? : List Char → Option (List Char × List Char)
  | '<' :: cs => Text.splitFirst (· == '>') cs
  | _ => none

/-- White space, perhaps a full stop, and nothing more. -/
def endsDeclaration (cs : List Char) : Bool :=
  match cs.dropWhile Text.isBlank with
  | [] | ['.'] => true
  | _ => false

/-- The prefix and the namespace that a trimmed line declares. -/
def declaration? (line : List Char) : Option (List Char × List Char) := do
  let cs := if line.head? = some '@' then line.drop 1 else line
  let cs ← afterBlanks? (← afterKeyword? "prefix".toList cs)
  let name := cs.takeWhile isNameChar
  match cs.dropWhile isNameChar with
  | ':' :: cs =>
    let (ns, rest) ← bracketed? (cs.dropWhile Text.isBlank)
    if endsDeclaration rest then some (name, ns) else none
  | _ => none

/-! ## Statements -/

/-- The ways to take a term off the front of a text: what stands between brackets
first, and then a run of characters without white space. -/
def termSplits (cs : List Char) : List (List Char × List Char) :=
  let run := (cs.takeWhile (fun c => !Text.isBlank c), cs.dropWhile fun c => !Text.isBlank c)
  (match bracketed? cs with
    | some (inner, rest) => [('<' :: inner ++ ['>'], rest)]
    | none => [])
  ++ if run.1.isEmpty then [] else [run]

/-- A literal: a quote, and later a last quote with no white space after it. -/
def isLiteral : List Char → Bool
  | '"' :: cs =>
    match Text.splitLast (· == '"') cs with
    | some (_, after) => !after.any Text.isBlank
    | none => false
  | _ => false

/-- A term that stands alone, as the object of a statement does. -/
def isObject (cs : List Char) : Bool :=
  isLiteral cs || (termSplits cs).any fun s => s.2.isEmpty

/-- Take a term and the white space after it off the front of a text, in every
way there is. -/
def leadingTerms (cs : List Char) : List (List Char × List Char) :=
  (termSplits cs).filterMap fun s => (afterBlanks? s.2).map fun rest => (s.1, rest)

/-- The terms of a line without its full stop and without white space at its end. -/
def terms? (body : List Char) : Option (List Char × List Char × List Char) :=
  (leadingTerms body).findSome? fun s =>
    (leadingTerms s.2).findSome? fun p =>
      if isObject p.2 then some (s.1, p.1, p.2) else none

/-- The terms of the statement that a trimmed line makes. -/
def statement? (line : List Char) : Option (List Char × List Char × List Char) :=
  if line.getLast? = some '.' then terms? (Text.trimEnd line.dropLast) else none

/-! ## Terms -/

/-- The term that a text stands for under declared prefixes. -/
def readTerm (declared : Namespaces) (cs : List Char) : Except Fault Uri :=
  let text := String.ofList cs
  let u := Uri.ofTerm text
  if cs.head? = some '<' || cs.head? = some '"' || cs = ['a']
      || Text.occursIn Uri.schemeMark cs then .ok u
  else if !cs.contains ':' then .error (.notATerm text)
  else match lookupNamespace? declared u.ns with
    | some ns => .ok ⟨ns, u.value⟩
    | none => .error (.undeclared u.ns)

/-- The statement of three terms. -/
def readTriple (declared : Namespaces) (s p o : List Char) : Except Fault Triple := do
  let subject ← readTerm declared s
  let predicate ← readTerm declared p
  let object ← readTerm declared o
  return ⟨subject, predicate, object⟩

/-! ## Lines and files -/

/-- Why a line was skipped. -/
inductive Skip where
  /-- It is neither a declaration nor a statement. -/
  | unrecognized (line : String)
  /-- One of its terms has no meaning. -/
  | badTerm (cause : Fault)
deriving DecidableEq, Repr

/-- What a trimmed line says. -/
inductive Line where
  /-- Nothing. -/
  | nothing
  /-- A prefix stands for a namespace. -/
  | declaration (name ns : String)
  /-- A statement holds. -/
  | statement (t : Triple)
  /-- The line is skipped. -/
  | skipped (why : Skip)
deriving DecidableEq, Repr

/-- Read a trimmed line. -/
def readLine (declared : Namespaces) (line : List Char) : Line :=
  if line.isEmpty || line.head? = some '#' then .nothing
  else match declaration? line with
    | some (name, ns) => .declaration (String.ofList name) (String.ofList ns)
    | none =>
      match statement? line with
      | none => .skipped (.unrecognized (String.ofList line))
      | some (s, p, o) =>
        match readTriple declared s p o with
        | .ok t => .statement t
        | .error e => .skipped (.badTerm e)

/-- A warning about a line, which are numbered from one. -/
structure Warning where
  /-- The number of the line. -/
  line : Nat
  /-- Why it was skipped. -/
  why : Skip
deriving DecidableEq, Repr

/-- The wording of a warning. -/
def Warning.text (w : Warning) : String :=
  "line " ++ toString w.line ++ ": " ++
    match w.why with
    | .unrecognized line => "skipping unrecognized statement '" ++ line ++ "'"
    | .badTerm cause => cause.message

/-- What was read so far, latest first. -/
structure Progress where
  /-- The statements. -/
  triples : List Triple
  /-- The declared prefixes. -/
  namespaces : Namespaces
  /-- The warnings. -/
  warnings : List Warning

/-- What was read, with one more line. -/
def Progress.add (p : Progress) (number : Nat) (line : List Char) : Progress :=
  match readLine p.namespaces (Text.trim line) with
  | .nothing => p
  | .declaration name ns =>
    { p with namespaces := (Dataset.mk [] p.namespaces |>.addNamespace name ns).namespaces }
  | .statement t => { p with triples := t :: p.triples }
  | .skipped why => { p with warnings := ⟨number, why⟩ :: p.warnings }

/-- What was read, with more lines, the first of which has the given number. -/
def Progress.addAll (p : Progress) : Nat → List (List Char) → Progress
  | _, [] => p
  | n, line :: lines => (p.add n line).addAll (n + 1) lines

/-- The dataset of a data file, and the warnings about it. -/
def read (text : String) : Dataset × List Warning :=
  let p := (Progress.mk [] ∅ []).addAll 1 (Text.lines text.toList)
  (⟨p.triples.reverse, p.namespaces⟩, p.warnings.reverse)

/-- The dataset of a data file. -/
def parse (text : String) : Dataset := (read text).1

end Dataset.Turtle

end TripleStore
