import TripleStore.Relation.Basic

/-!
# Joins

A join extends each row by the rows of another relation that agree with it.  Two
rows agree on a variable if both bind it, to the same key.  On no variables all
pairs of rows agree.  The result is in the order of the rows and then of their
partners, and its columns are those of the relation and then the new ones of the
other.

Partners are found in the index of the other relation.  If the result has more
rows than the relation may have, it loses all of them.

`nestedJoin` is the same table computed by comparing every pair of rows.
-/

namespace TripleStore

namespace Relation

/-! ## Partners and merged rows -/

/-- For each column of the other relation, the column of this one it goes to. -/
def targets (columns otherColumns : List String) : List Nat :=
  otherColumns.map columns.idxOf

/-- A row overwritten by what another row binds from column `pos` on. -/
def merge (row other : Row) (pos : Nat) : List Nat → Row
  | [] => row
  | target :: rest => merge (row.set target (other.value pos)) other (pos + 1) rest

/-- The bindings of a row for variables, or none if one of them is no column. -/
def bindings? (r : Relation) (row : Row) (vars : List String) : Option (List (String × Key)) :=
  vars.mapM fun var => (r.position? var).map fun i => (var, row.value i)

/-- The rows of another relation that agree with a row, found in the index. -/
def partners (r other : Relation) (on : List String) (row : Row) : List Row :=
  if on.isEmpty then other.rows.toList
  else match r.bindings? row on with
    | none => []
    | some bs =>
      match other.common? bs with
      | none => []
      | some slots => slots.toList.filterMap fun i => other.rows[i]?

/-! ## The join -/

/-- Extend rows by their partners, onto the rows made before.  The answer is none
if there are more than `limit`. -/
def joinRows (limit : Nat) (partners : Row → List Row) (combine : Row → Row → Row) :
    List Row → Array Row → Option (Array Row)
  | [], done => some done
  | row :: rows, done =>
    let ps := partners row
    if limit < done.size + ps.length then none
    else joinRows limit partners combine rows (done ++ (ps.map (combine row)).toArray)

/-- Join with another relation on variables. -/
def join (r other : Relation) (on : List String) : Except Fault Unit × Relation :=
  let columns := addColumns r.columns other.columns
  let widened := { r with columns }
  let ts := targets columns other.columns
  match joinRows r.limit (widened.partners other on) (fun row o => merge row o 0 ts)
      r.rows.toList #[] with
  | none => (.error (.rowLimit r.limit), widened.clear)
  | some rows => (.ok (), { widened with rows, index := indexRows columns 0 rows.toList ∅ })

/-- Take over the rows of another relation in place of one's own. -/
def replaceWith (r other : Relation) : Except Fault Unit × Relation :=
  r.clear.addUnit.join other []

/-! ## The same by comparing all pairs -/

/-- Two rows of two relations bind a variable to the same key. -/
def agreeOn (r other : Relation) (row o : Row) (var : String) : Bool :=
  let k := r.valueIn row var
  !k.isEmpty && k = other.valueIn o var

/-- The rows of a join, computed by comparing every row with every other. -/
def nestedJoin (r other : Relation) (on : List String) : List Row :=
  let columns := addColumns r.columns other.columns
  let ts := targets columns other.columns
  r.rows.toList.flatMap fun row =>
    (other.rows.toList.filter fun o => on.all (agreeOn r other row o)).map fun o =>
      merge row o 0 ts

end Relation

end TripleStore
