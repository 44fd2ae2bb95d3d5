import TripleStore.Plan.Operator
import TripleStore.Plan.Order
import TripleStore.Query.Basic

/-!
# Plans

A plan is the steps that answer a query in a version.  There is one step for each
term, in the order of `Plan.order`.  The operator is chosen by which positions of
the term are variables and which of these variables earlier steps bind.

For this the plan records variables that its steps bind: alone, or together with
another variable, which is then called its parent.

A term of three variables of which none is recorded would have to be matched
against the whole graph.  Such a query is refused.
-/

namespace TripleStore

/-- How a variable is bound. -/
inductive Binding where
  /-- On its own. -/
  | alone
  /-- Together with another variable. -/
  | under (parent : String)
deriving DecidableEq, Repr, Inhabited

/-- The variables that steps bind, and how. -/
abbrev Bindings := Std.ExtTreeMap String Binding compare

/-- The steps that answer a query. -/
structure Plan where
  /-- The variables of the query, selected ones first. -/
  vars : List String
  /-- The selected variables. -/
  selected : List String
  /-- The steps, in the order in which they are run. -/
  steps : List Step
  /-- The variables bound by the steps. -/
  bindings : Bindings

namespace Bindings

/-! ## Recorded variables -/

/-- Decide whether a variable is bound together with another. -/
def isChild (b : Bindings) (var : String) : Bool :=
  match b[var]? with
  | some (.under _) => true
  | _ => false

/-- Decide whether a variable is bound on its own. -/
def isAlone (b : Bindings) (var : String) : Bool := b[var]? = some .alone

/-- Record a variable as bound on its own. -/
def bindAlone (b : Bindings) (var : String) : Bindings := b.insert var .alone

/-- Record a variable as bound on its own, unless it has a parent. -/
def keepOrBind (b : Bindings) (var : String) : Bindings :=
  if isChild b var then b else bindAlone b var

/-- Record a variable as bound together with a parent.  Nothing is its own parent. -/
def bindUnder (b : Bindings) (parent var : String) : Bindings :=
  if parent = var then b else b.insert var (.under parent)

end Bindings

namespace Plan

/-! ## Choosing operators -/

open Bindings in
/-- The operator for a path between two variables. -/
def chooseEnds (b : Bindings) (s o : String) : Operator × Bindings :=
  match b.contains s, b.contains o with
  | true, true =>
    if isChild b s || (!isChild b o && isAlone b s) then (.ends, bindUnder b s o)
    else (.ends, bindUnder b o s)
  | false, true => (.subjectsOfBound, bindUnder b o s)
  | true, false => (.objectsOfBound, bindUnder b s o)
  | false, false => (.ends, bindUnder (bindAlone b s) s o)

open Bindings in
/-- The operator for a statement of three variables, or none if none is recorded. -/
def chooseTriple? (b : Bindings) (s p o : String) : Option (Operator × Bindings) :=
  if b.contains s then some (.tripleFromSubject, bindUnder (bindUnder b s p) s o)
  else if b.contains o then some (.tripleFromObject, bindUnder (bindUnder b o s) o p)
  else if b.contains p then some (.tripleFromPredicate, bindUnder (bindUnder b p s) p o)
  else none

open Bindings in
/-- The operator for a term, and the variables bound after it. -/
def choose (b : Bindings) (t : Term) : Except Fault (Operator × Bindings) :=
  match t.subject.var?, t.link.var?, t.object.var? with
  | none, none, none => .ok (.check, b)
  | some s, none, none => .ok (.subjects, keepOrBind b s)
  | none, none, some o => .ok (.objects, keepOrBind b o)
  | none, some p, none => .ok (.predicates, keepOrBind b p)
  | some s, none, some o => .ok (chooseEnds b s o)
  | some s, some p, none => .ok (.statementsInto, bindUnder b s p)
  | none, some p, some o => .ok (.statementsFrom, bindUnder b o p)
  | some s, some p, some o =>
    match chooseTriple? b s p o with
    | some choice => .ok choice
    | none => .error (.wholeGraph t.text)

/-- The steps for terms in order, and the variables bound after them. -/
def stepsFor : Bindings → List Term → Except Fault (List Step × Bindings)
  | b, [] => .ok ([], b)
  | b, t :: ts => do
    let (operator, b) ← choose b t
    let (steps, b) ← stepsFor b ts
    return (⟨operator, t⟩ :: steps, b)

/-- The plan of a query in a version, given the keys of what the query names. -/
def ofQuery (key : Uri → Except Fault Key) (q : Query) : Except Fault Plan := do
  if q.patterns.isEmpty then throw .noPatterns
  let terms ← q.patterns.mapM (Term.ofPattern key)
  let (steps, bindings) ← stepsFor ∅ ((order terms).map (·.2))
  return ⟨q.allVariables, q.select, steps, bindings⟩

/-! ## Writing -/

/-- A number with spaces before it, in at least three places. -/
def numberText (n : Nat) : String :=
  let digits := toString n
  String.ofList (List.replicate (3 - digits.length) ' ') ++ digits

/-- A plan as text: one numbered line for each step. -/
def text (p : Plan) : String :=
  String.join (p.steps.mapIdx fun i s => numberText i ++ ": " ++ s.text ++ "\n")

end Plan

namespace Cursor

/-! ## Running a plan -/

/-- The plan of a query in the version of a cursor. -/
def plan (t : Tables) (c : Cursor) (q : Query) : Except Fault Plan :=
  Plan.ofQuery (c.keyOf t) q

/-- Run steps, and stop after one that leaves no row. -/
def runSteps (t : Tables) : Cursor → List Step → Except Fault Unit × Cursor
  | c, [] => (.ok (), c)
  | c, s :: ss =>
    match s.run t c with
    | (.ok _, c) => if c.relation.isEmpty then (.ok (), c) else runSteps t c ss
    | (.error e, c) => (.error e, c)

/-- Plan and run a query.  The bindings are left in the relation. -/
def execute (t : Tables) (c : Cursor) (q : Query) : Except Fault Unit × Cursor :=
  match c.plan t q with
  | .ok p => runSteps t (c.withVariables p.vars) p.steps
  | .error e => (.error e, c)

end Cursor

end TripleStore
