import TripleStore.Query.Pattern
import TripleStore.Walk.Segment

/-!
# Terms of a query

A term is a pattern looked at in one version of a graph.  Where the pattern names
something the term has its key, and where the pattern has a variable the term has
its name.

A variable may stand in the place of the predicate if it is the whole path and
has no quantifier.
-/

namespace TripleStore

/-- An end of a term. -/
inductive Slot where
  /-- A variable. -/
  | free (var : String)
  /-- An entity. -/
  | bound (key : Key)
deriving DecidableEq, Repr, Inhabited

namespace Slot

/-- The variable, if it is one. -/
def var? : Slot → Option String
  | free var => some var
  | bound _ => none

/-- The entity.  A variable has the empty key. -/
def key : Slot → Key
  | free _ => Key.empty
  | bound k => k

end Slot

/-- What links the ends of a term. -/
inductive Link where
  /-- A statement whose predicate is a variable. -/
  | free (var : String)
  /-- A path. -/
  | path (segments : List Segment)
deriving DecidableEq, Repr, Inhabited

namespace Link

/-- The variable, if it is one. -/
def var? : Link → Option String
  | free var => some var
  | path _ => none

/-- The segments of the path.  A variable has one hop over the empty key. -/
def segments : Link → List Segment
  | free _ => [⟨Key.empty, .single⟩]
  | path segments => segments

/-- The first predicate.  A variable has the empty key. -/
def predicate (l : Link) : Key := (l.segments.head?.map Segment.predicate).getD Key.empty

end Link

/-- A pattern in a version of a graph. -/
@[ext]
structure Term where
  /-- What the statement is about. -/
  subject : Slot
  /-- What links the subject to the object. -/
  link : Link
  /-- What it is linked to. -/
  object : Slot
  /-- The pattern. -/
  pattern : Pattern
deriving DecidableEq, Repr, Inhabited

namespace Term

/-- The variables of a term, each once. -/
def vars (t : Term) : List String := t.pattern.vars

/-- A term as written. -/
def text (t : Term) : String := "<" ++ t.pattern.text ++ ">"

/-- The variables of the three positions. -/
def roles (t : Term) : List (Option String) := [t.subject.var?, t.link.var?, t.object.var?]

/-- The number of positions that are variables. -/
def openPositions (t : Term) : Nat := (t.roles.filter Option.isSome).length

/-- The number of variables two terms share. -/
def overlap (t u : Term) : Nat := (t.vars.filter u.vars.contains).length

/-! ## From patterns -/

/-- One end of a term. -/
def slotOf (key : Uri → Except Fault Key) (u : Uri) : Except Fault Slot :=
  if u.isVariable then .ok (.free u.value) else (key u).map .bound

/-- A segment of a path that has no variable in it. -/
def segmentOf (key : Uri → Except Fault Key) (p : Pattern) (s : PathStep) :
    Except Fault Segment := do
  if s.predicate.isVariable then throw (.variableInPath p.text)
  return ⟨← key s.predicate, s.quantifier⟩

/-- The link of a term. -/
def linkOf (key : Uri → Except Fault Key) (p : Pattern) : Except Fault Link :=
  match p.path with
  | [] => .error (.noPredicate p.text)
  | [⟨predicate, .single⟩] =>
    if predicate.isVariable then .ok (.free predicate.value)
    else (key predicate).map fun k => .path [⟨k, .single⟩]
  | steps => (steps.mapM (segmentOf key p)).map .path

/-- The term of a pattern, given the keys of what it names. -/
def ofPattern (key : Uri → Except Fault Key) (p : Pattern) : Except Fault Term := do
  let link ← linkOf key p
  let subject ← slotOf key p.subject
  let object ← slotOf key p.object
  return ⟨subject, link, object, p⟩

end Term

end TripleStore
