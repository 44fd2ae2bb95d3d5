import TripleStore.Database.Insert
import TripleStore.Plan.Operator
import TripleStore.Walk.Queue

/-!
# Sessions

A session is a database with a cursor on one of its versions.  The cursor is asked
for entities and for walks, operators are run on it, and between that more may be
inserted into the database.  What can be seen of a request is its outcome and the
bindings that the cursor has after it.

The cursor may be told to forget what it read at any time.  Nothing is to be seen
of that.
-/

namespace TripleStore

/-- Something to read. -/
inductive Question where
  /-- The entity of a key. -/
  | entity (k : Key)
  /-- What a segment leads to from a start. -/
  | follow (d : Direction) (start : Key) (seg : Segment)
  /-- The objects a path leads to. -/
  | objects (subject : Key) (path : List Segment)
  /-- The subjects from which a path leads to an object. -/
  | subjects (object : Key) (path : List Segment)
  /-- The subjects and objects of a predicate. -/
  | predicatePairs (predicate : Key)
  /-- The subjects and objects that a path links. -/
  | pathPairs (path : List Segment)
  /-- The predicates of the statements from a subject to an object. -/
  | predicatesBetween (subject object : Key)
  /-- The subjects and predicates of the statements about an object. -/
  | statementsInto (object : Key)
  /-- The predicates and objects of the statements of a subject. -/
  | statementsFrom (subject : Key)

/-- What a request is answered with. -/
inductive Reply where
  /-- An entity. -/
  | entity (e : Entity)
  /-- Entities. -/
  | entities (es : List Entity)
  /-- What a walk found. -/
  | reach (r : Reach)
  /-- Keys. -/
  | keys (ks : Keys)
  /-- Pairs of keys. -/
  | pairs (ps : List (Key × Key))
  /-- Rows of terms. -/
  | rows (rows : List (List Uri))
  /-- A version that was made. -/
  | version (v : UInt64)
  /-- Nothing but that it was done. -/
  | done

/-- How a question is answered. -/
def Question.reading : Question → Reading Reply
  | entity k => do return .entity (← Reading.entity k)
  | follow d start seg => do return .reach (← Reading.followQueue d start seg)
  | objects s path => do return .keys (← Reading.objects s path)
  | subjects o path => do return .keys (← Reading.subjects o path)
  | predicatePairs p => do return .pairs (← Reading.predicatePairs p)
  | pathPairs path => do return .pairs (← Reading.pathPairs path)
  | predicatesBetween s o => do return .keys (← Reading.predicatesBetween s o)
  | statementsInto o => do return .pairs (← Reading.statementsInto o)
  | statementsFrom s => do return .pairs (← Reading.statementsFrom s)

/-- A dataset to be inserted, and what the clock reads then. -/
structure Insertion where
  /-- The reading of the clock. -/
  now : UInt64
  /-- The graph. -/
  graph : String
  /-- The dataset. -/
  dataset : Dataset

/-- A database after an insertion, which may fail. -/
def Database.insertion (db : Database) (i : Insertion) : Except Fault UInt64 × Database :=
  db.insert i.now i.graph i.dataset

/-- What is asked for in a session. -/
inductive Request where
  /-- Read something. -/
  | ask (q : Question)
  /-- List the entities of the version. -/
  | entities
  /-- List the terms that rows bind to variables. -/
  | rows (vars : List String)
  /-- Start again with some variables. -/
  | restart (vars : List String)
  /-- Run an operator. -/
  | step (s : Step)
  /-- Insert into a graph. -/
  | insert (i : Insertion)

/-- What happens in a session. -/
inductive Event where
  /-- A request. -/
  | request (r : Request)
  /-- The cursor forgets what it read. -/
  | forget

/-- What is seen of a request. -/
structure Observation where
  /-- The outcome. -/
  outcome : Except Fault Reply
  /-- The bindings after it. -/
  relation : Relation

/-- A database and a cursor. -/
structure Session where
  /-- The database. -/
  database : Database
  /-- The cursor. -/
  cursor : Cursor

namespace Session

/-- Serve a request. -/
def serve (x : Session) : Request → Except Fault Reply × Session
  | .ask q =>
    let (reply, cursor) := x.cursor.run x.database.tables q.reading
    (reply, { x with cursor })
  | .entities => ((x.cursor.entities x.database.tables).map .entities, x)
  | .rows vars => ((x.cursor.termRows x.database.tables vars).map .rows, x)
  | .restart vars => (.ok .done, { x with cursor := x.cursor.withVariables vars })
  | .step s =>
    let (outcome, cursor) := s.run x.database.tables x.cursor
    (outcome.map fun _ => .done, { x with cursor })
  | .insert i =>
    let (outcome, database) := x.database.insertion i
    (outcome.map .version, { x with database })

/-- A session whose cursor remembers nothing. -/
def forget (x : Session) : Session := { x with cursor := x.cursor.forget }

/-- What is seen of requests. -/
def answers (x : Session) : List Request → List Observation
  | [] => []
  | r :: rs => ⟨(x.serve r).1, (x.serve r).2.cursor.relation⟩ :: (x.serve r).2.answers rs

/-- What is seen of all that happens. -/
def observe (x : Session) : List Event → List Observation
  | [] => []
  | .forget :: es => x.forget.observe es
  | .request r :: es =>
    ⟨(x.serve r).1, (x.serve r).2.cursor.relation⟩ :: (x.serve r).2.observe es

end Session

end TripleStore
