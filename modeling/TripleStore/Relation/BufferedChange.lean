import TripleStore.Relation.Buffered
import TripleStore.Relation.Change

/-!
# Changes in row buffers

A step of a query changes the relation where it lies in memory.  The tuples it
found are put into a table of their own first, and that table is then joined with
the rows, or takes their place if nothing has been found yet.
-/

namespace TripleStore

namespace BufferedRelation

/-- Decide whether there are no rows. -/
def isEmpty (b : BufferedRelation) : Bool := b.rows.isEmpty

/-- Decide whether some row binds a variable. -/
def binds (b : BufferedRelation) (var : String) : Bool :=
  match b.index[var]? with
  | some m => !m.isEmpty
  | none => false

/-- Combine with new bindings. -/
def combine (b found : BufferedRelation) : Except Fault Unit × BufferedRelation :=
  let on := found.columns.filter b.binds
  if on.isEmpty && b.isEmpty then b.replaceWith found else b.join found on

/-- Combine with tuples of variables. -/
def bindTuples (b : BufferedRelation) (vars : List String) (tuples : List (List Key)) :
    Except Fault Unit × BufferedRelation :=
  match (new vars).insertAll vars tuples with
  | (.ok _, found) => b.combine found
  | (.error e, _) => (.error e, b)

/-- Restrict a variable to some keys. -/
def bindKeys (b : BufferedRelation) (var : String) (keys : Keys) :
    Except Fault Unit × BufferedRelation :=
  let tuples := keys.toList.map fun k => [k]
  if b.isEmpty && !b.binds var then b.insertAll [var] tuples else b.bindTuples [var] tuples

/-- Keep the rows if a statement holds, and give them up if it does not. -/
def check (b : BufferedRelation) (holds : Bool) : BufferedRelation :=
  if holds then if b.isEmpty then b.addUnit else b else b.clear

/-- A table after a step. -/
def apply (b : BufferedRelation) : Relation.Change → Except Fault Unit × BufferedRelation
  | .check holds => (.ok (), b.check holds)
  | .keys var keys => b.bindKeys var keys
  | .tuples vars tuples => b.bindTuples vars tuples

end BufferedRelation

end TripleStore
