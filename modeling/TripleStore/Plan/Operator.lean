import TripleStore.Cursor
import TripleStore.Query.Term
import TripleStore.Relation.Change
import TripleStore.Walk.Path

/-!
# Operators

An operator matches one term against the version.  Which one is chosen depends on
the positions of the term that are variables and on the variables bound before.

An operator works in two halves.  `found` reads entities and says what the term
allows, and the relation is changed by that.  A fault of the first half leaves
the relation as it was.

A bound end that does not exist allows nothing, so it empties the relation and
is no fault.
-/

namespace TripleStore

/-- A way to match a term.  In the comments a letter with `?` is a variable. -/
inductive Operator where
  /-- `s p o`: keep the rows if the path leads from `s` to `o`. -/
  | check
  /-- `?s p o`: the subjects from which the path leads to `o`. -/
  | subjects
  /-- `s p ?o`: the objects the path leads to from `s`. -/
  | objects
  /-- `s ?p o`: the predicates of the statements from `s` to `o`. -/
  | predicates
  /-- `?s p ?o`, from whichever end is bound, or from the predicate. -/
  | ends
  /-- `?s p ?o` with `?o` bound. -/
  | subjectsOfBound
  /-- `?s p ?o` with `?s` bound. -/
  | objectsOfBound
  /-- `?s ?p o`: the statements about `o`. -/
  | statementsInto
  /-- `s ?p ?o`: the statements of `s`. -/
  | statementsFrom
  /-- `?s ?p ?o` with `?s` bound. -/
  | tripleFromSubject
  /-- `?s ?p ?o` with `?o` bound. -/
  | tripleFromObject
  /-- `?s ?p ?o` with `?p` bound. -/
  | tripleFromPredicate
deriving DecidableEq, Repr, Inhabited

namespace Operator

/-- All operators. -/
def all : List Operator :=
  [check, subjects, objects, predicates, ends, subjectsOfBound, objectsOfBound, statementsInto,
    statementsFrom, tripleFromSubject, tripleFromObject, tripleFromPredicate]

/-- The name of an operator in a plan. -/
def name : Operator → String
  | check => "CheckTriple"
  | subjects => "ResolveSubject"
  | objects => "ResolveObject"
  | predicates => "ResolvePredicate"
  | ends => "RestrictSubjectObjectByPredicate"
  | subjectsOfBound => "ResolveSubjectFromVarObject"
  | objectsOfBound => "ResolveObjectFromVarSubject"
  | statementsInto => "ResolveSubjectPredFromObject"
  | statementsFrom => "ResolvePredObjectFromSubject"
  | tripleFromSubject => "ResolveVarTripleFromSubject"
  | tripleFromObject => "ResolveVarTripleFromObject"
  | tripleFromPredicate => "ResolveVarTripleFromPredicate"

/-- The operator of a name. -/
def ofName? (name : String) : Option Operator := all.find? fun op => op.name = name

/-! ## Variables -/

/-- A variable that an operator needs. -/
def needed (t : Term) (role : String) (var : Option String) : Reading String :=
  match var with
  | some v => return v
  | none => Reading.fail (.noVariable role t.text)

/-- The variable of the subject. -/
def subjectVar (t : Term) : Reading String := needed t "subject" t.subject.var?

/-- The variable of the predicate. -/
def predicateVar (t : Term) : Reading String := needed t "predicate" t.link.var?

/-- The variable of the object. -/
def objectVar (t : Term) : Reading String := needed t "object" t.object.var?

/-! ## What a term allows -/

/-- The pairs of some objects with the subjects from which a path leads there. -/
def pairsInto (path : List Segment) : List Key → Reading (List (Key × Key))
  | [] => return []
  | k :: ks => do
    let ss ← Reading.subjects k path
    let rest ← pairsInto path ks
    return ss.toList.map (fun s => (s, k)) ++ rest

/-- The tuples of pairs. -/
def tuplesOf (pairs : List (Key × Key)) : List (List Key) := pairs.map fun p => [p.1, p.2]

/-- The pairs that a path links, with what is known of its ends. -/
def linkedPairs (path : List Segment) (r : Relation) (svar ovar : String) :
    Reading (List (Key × Key)) :=
  match r.binds svar, r.binds ovar with
  | false, false => Reading.pathPairs path
  | true, false => Reading.pairsFrom path (r.valuesFor svar).toList
  | false, true => pairsInto path (r.valuesFor ovar).toList
  | true, true => do
    let pairs ← Reading.pairsFrom path (r.valuesFor svar).toList
    return pairs.filter fun p => (r.valuesFor ovar).contains p.2

/-- The tuples of statements around each of some entities. -/
def around (statements : Key → Reading (List (List Key))) :
    List Key → Reading (List (List Key))
  | [] => return []
  | k :: ks => do
    let here ← statements k
    let rest ← around statements ks
    return here ++ rest

/-- What a term allows, given the bindings of the rows. -/
def found (t : Term) (r : Relation) : Operator → Reading Relation.Change
  | check => do
    let os ← Reading.objects t.subject.key t.link.segments
    return .check (os.contains t.object.key)
  | subjects => do
    let svar ← subjectVar t
    return .keys svar (← Reading.subjects t.object.key t.link.segments)
  | objects => do
    let ovar ← objectVar t
    return .keys ovar (← Reading.objects t.subject.key t.link.segments)
  | predicates => do
    let pvar ← predicateVar t
    return .keys pvar (← Reading.predicatesBetween t.subject.key t.object.key)
  | ends => do
    let svar ← subjectVar t
    let ovar ← objectVar t
    return .tuples [svar, ovar] (tuplesOf (← linkedPairs t.link.segments r svar ovar))
  | subjectsOfBound => do
    let svar ← subjectVar t
    let ovar ← objectVar t
    let pairs ← pairsInto t.link.segments (r.valuesFor ovar).toList
    return .tuples [svar, ovar] (tuplesOf pairs)
  | objectsOfBound => do
    let svar ← subjectVar t
    let ovar ← objectVar t
    let pairs ← Reading.pairsFrom t.link.segments (r.valuesFor svar).toList
    return .tuples [svar, ovar] (tuplesOf pairs)
  | statementsInto => do
    let svar ← subjectVar t
    let pvar ← predicateVar t
    return .tuples [svar, pvar] (tuplesOf (← Reading.statementsInto t.object.key))
  | statementsFrom => do
    let pvar ← predicateVar t
    let ovar ← objectVar t
    return .tuples [pvar, ovar] (tuplesOf (← Reading.statementsFrom t.subject.key))
  | tripleFromSubject => do
    let svar ← subjectVar t
    let pvar ← predicateVar t
    let ovar ← objectVar t
    let tuples ← around (fun s => do
      return (← Reading.statementsFrom s).map fun p => [s, p.1, p.2]) (r.valuesFor svar).toList
    return .tuples [svar, pvar, ovar] tuples
  | tripleFromObject => do
    let svar ← subjectVar t
    let pvar ← predicateVar t
    let ovar ← objectVar t
    let tuples ← around (fun o => do
      return (← Reading.statementsInto o).map fun p => [p.1, p.2, o]) (r.valuesFor ovar).toList
    return .tuples [svar, pvar, ovar] tuples
  | tripleFromPredicate => do
    let svar ← subjectVar t
    let pvar ← predicateVar t
    let ovar ← objectVar t
    let tuples ← around (fun q => do
      return (← Reading.predicatePairs q).map fun p => [p.1, q, p.2]) (r.valuesFor pvar).toList
    return .tuples [svar, pvar, ovar] tuples

end Operator

/-- An operator and the term it matches. -/
@[ext]
structure Step where
  /-- The operator. -/
  operator : Operator
  /-- The term. -/
  term : Term
deriving DecidableEq, Repr, Inhabited

namespace Step

/-- A step as written in a plan. -/
def text (s : Step) : String := "[" ++ s.operator.name ++ " " ++ s.term.text ++ "]"

/-- Run a step on a cursor. -/
def run (t : Tables) (c : Cursor) (s : Step) : Except Fault Unit × Cursor :=
  match c.run t (s.operator.found s.term c.relation) with
  | (.ok change, c) =>
    let (outcome, relation) := c.relation.apply change
    (outcome, { c with relation })
  | (.error e, c) => (.error e, c)

end Step

end TripleStore
