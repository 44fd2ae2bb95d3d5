import TripleStore.Database.Basic
import TripleStore.Plan.Basic
import TripleStore.Query.Response

/-!
# Answers

A query is answered in each of its graphs on its own, and the responses are put
together.  If it is about every graph, those without a version at or before its
time are left out.  A graph that is named has to have one.
-/

namespace TripleStore

namespace Database

/-- The cursors on the graphs a query is about.  A cursor can only be missing because
the graph has no version as of the time. -/
def cursors (db : Database) (q : Query) : Except Fault (List Cursor) :=
  if q.wantsAllGraphs then .ok (db.graphs.filterMap fun g => (db.cursor g q.version).toOption)
  else q.graphs.mapM fun g => db.cursor g q.version

/-- Run a query with a cursor.  The answer is the cursor with the bindings. -/
def executed (t : Tables) (q : Query) (c : Cursor) : Except Fault Cursor :=
  match c.execute t q with
  | (.ok _, c) => .ok c
  | (.error e, _) => .error e

/-- The response with the rows of one graph. -/
def rowsIn (t : Tables) (q : Query) (c : Cursor) : Except Fault Response := do
  let c ← executed t q c
  let rows ← c.termRows t q.select
  return ⟨q.select, rows, rows.length, c.version⟩

/-- The response with the number of rows of one graph. -/
def countIn (t : Tables) (q : Query) (c : Cursor) : Except Fault Response := do
  let c ← executed t q c
  return ⟨q.select, [], (c.keyRows q.select).length, c.version⟩

/-- The response with what two graphs have to say. -/
def together (r s : Response) : Response where
  vars := r.vars
  rows := r.rows ++ s.rows
  count := r.count + s.count
  version := max r.version s.version

/-- Put the responses of all graphs of a query together. -/
def gather (db : Database) (q : Query) (answer : Cursor → Except Fault Response) :
    Except Fault Response := do
  let responses ← (← db.cursors q).mapM answer
  return responses.foldl together ⟨q.select, [], 0, 0⟩

/-- Answer a query with rows. -/
def select (db : Database) (q : Query) : Except Fault Response := db.gather q (rowsIn db.tables q)

/-- Answer a query with the number of rows. -/
def count (db : Database) (q : Query) : Except Fault Response := db.gather q (countIn db.tables q)

/-- The plan of one graph as text. -/
def planText (t : Tables) (q : Query) (c : Cursor) : Except Fault String := do
  let p ← c.plan t q
  return c.graph ++ " @ " ++ toString c.version.toNat ++ "\n" ++ p.text

/-- The plans of a query as text. -/
def explain (db : Database) (q : Query) : Except Fault String := do
  return String.join (← (← db.cursors q).mapM (planText db.tables q))

end Database

end TripleStore
