import TripleStore.Relation.Join

/-!
# Changes

What one step of a query does to the bindings found so far.  A step may have found
whether a statement holds, the keys one variable may have, or the tuples several
variables may have together.

Bindings found earlier are kept where they agree with the new ones.  A relation
without rows stands for a query of which nothing has been found yet, so what a
step finds first is taken over as it is.

A change that does not fit below the limit fails.  If it failed while it was
being combined with the rows, they are gone.
-/

namespace TripleStore

namespace Relation

/-- Tuples of variables, as a relation of their own. -/
def ofTuples (vars : List String) (tuples : List (List Key)) : Except Fault Unit × Relation :=
  (new vars).insertAll vars tuples

/-- Combine with new bindings.  Rows are joined with them on the variables that
both bind.  Without rows they are taken over. -/
def combine (r found : Relation) : Except Fault Unit × Relation :=
  let on := found.columns.filter r.binds
  if on.isEmpty && r.isEmpty then r.replaceWith found else r.join found on

/-- Combine with tuples of variables. -/
def bindTuples (r : Relation) (vars : List String) (tuples : List (List Key)) :
    Except Fault Unit × Relation :=
  match ofTuples vars tuples with
  | (.ok _, found) => r.combine found
  | (.error e, _) => (.error e, r)

/-- Restrict a variable to some keys. -/
def bindKeys (r : Relation) (var : String) (keys : Keys) : Except Fault Unit × Relation :=
  let tuples := keys.toList.map fun k => [k]
  if r.isEmpty && !r.binds var then r.insertAll [var] tuples else r.bindTuples [var] tuples

/-- Keep the rows if a statement holds, and give them up if it does not. -/
def check (r : Relation) (holds : Bool) : Relation :=
  if holds then if r.isEmpty then r.addUnit else r else r.clear

/-- What a step found. -/
inductive Change where
  /-- A statement holds or does not. -/
  | check (holds : Bool)
  /-- The keys a variable may have. -/
  | keys (var : String) (keys : Keys)
  /-- The tuples that variables may have. -/
  | tuples (vars : List String) (tuples : List (List Key))

/-- A relation after a step. -/
def apply (r : Relation) : Change → Except Fault Unit × Relation
  | .check holds => (.ok (), r.check holds)
  | .keys var keys => r.bindKeys var keys
  | .tuples vars tuples => r.bindTuples vars tuples

end Relation

end TripleStore
