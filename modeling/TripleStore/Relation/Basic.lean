import Std.Data.ExtTreeMap.Lemmas
import TripleStore.Fault
import TripleStore.Keys
import TripleStore.Relation.Row

/-!
# Relations

A relation is the table of bindings of a running query.  Its columns are
variables, in the order in which they were first named, and columns are only
ever added.  Its rows are numbered from zero, and the numbers of rows are called
slots.

The index has, for each variable and each key bound to it, the set of slots that
carry the pair.  Insertion looks there whether a tuple is carried already, and
the join looks there for partners.  The index is never consulted for unbound
columns, as the empty key is not in it.

A relation has a limit on its rows.  An insertion past the limit fails and keeps
the rows inserted before.
-/

namespace TripleStore

/-- A set of row numbers. -/
abbrev Slots := Std.ExtTreeSet Nat compare

/-- For each variable and key, the slots that carry them. -/
abbrev RowIndex := Std.ExtTreeMap String (Std.ExtTreeMap Key Slots compare) compare

/-- A table of bindings. -/
@[ext]
structure Relation where
  /-- The variables, each once. -/
  columns : List String
  /-- The rows. -/
  rows : Array Row
  /-- The slots that carry a binding. -/
  index : RowIndex
  /-- The most rows there may be. -/
  limit : Nat

namespace Relation

/-! ## Columns -/

/-- The most rows any relation may have. -/
def maxRows : Nat := UInt32.size - 1

/-- Columns with one more variable, unless it is among them. -/
def addColumn (columns : List String) (var : String) : List String :=
  if var ∈ columns then columns else columns ++ [var]

/-- Columns with more variables. -/
def addColumns (columns vars : List String) : List String := vars.foldl addColumn columns

/-- A relation over variables that has no rows. -/
def new (vars : List String) : Relation := ⟨addColumns [] vars, #[], ∅, maxRows⟩

instance : Inhabited Relation := ⟨new []⟩

/-- A relation over variables that has no rows and may not have more than `limit`. -/
def withLimit (vars : List String) (limit : Nat) : Relation :=
  { new vars with limit := min limit maxRows }

/-- The column of a variable. -/
def position? (r : Relation) (var : String) : Option Nat := r.columns.idxOf? var

/-- The key a row binds to a variable, empty if it does not bind the variable. -/
def valueIn (r : Relation) (row : Row) (var : String) : Key :=
  match r.position? var with
  | some i => row.value i
  | none => Key.empty

/-- The key row number `i` binds to a variable. -/
def value (r : Relation) (i : Nat) (var : String) : Key :=
  match r.rows[i]? with
  | some row => r.valueIn row var
  | none => Key.empty

/-- The number of rows. -/
def size (r : Relation) : Nat := r.rows.size

/-- Decide whether there are no rows. -/
def isEmpty (r : Relation) : Bool := r.rows.isEmpty

/-- The number of columns of the widest row. -/
def width (r : Relation) : Nat := r.rows.foldl (fun n row => max n row.width) 0

/-! ## The index -/

/-- An index with one more slot under a variable and a key. -/
def indexCell (index : RowIndex) (slot : Nat) (var : String) (k : Key) : RowIndex :=
  index.alter var fun m => some ((m.getD ∅).alter k fun s => some ((s.getD ∅).insert slot))

/-- An index with the bindings of a row in columns, the first of which is at `pos`. -/
def indexRow (slot : Nat) (row : Row) : Nat → List String → RowIndex → RowIndex
  | _, [], index => index
  | pos, var :: vars, index =>
    let k := row.value pos
    indexRow slot row (pos + 1) vars (if k.isEmpty then index else indexCell index slot var k)

/-- The index of rows, the first of which has the number `slot`. -/
def indexRows (columns : List String) : Nat → List Row → RowIndex → RowIndex
  | _, [], index => index
  | slot, row :: rows, index =>
    indexRows columns (slot + 1) rows (indexRow slot row 0 columns index)

/-- The slots that carry a binding, or none if no slot does. -/
def slots? (r : Relation) (var : String) (k : Key) : Option Slots :=
  r.index[var]?.bind fun m => m[k]?

/-- The slots that carry all of some bindings, or none if one of them is nowhere. -/
def common? (r : Relation) : List (String × Key) → Option Slots
  | [] => none
  | [(var, k)] => r.slots? var k
  | (var, k) :: rest =>
    match r.slots? var k, r.common? rest with
    | some s, some t => some (s ∩ t)
    | _, _ => none

/-- Decide whether some row binds a variable. -/
def binds (r : Relation) (var : String) : Bool :=
  match r.index[var]? with
  | some m => !m.isEmpty
  | none => false

/-- The keys that rows bind to a variable. -/
def valuesFor (r : Relation) (var : String) : Keys :=
  match r.index[var]? with
  | some m => Keys.ofList m.keys
  | none => ∅

/-- Decide whether one row carries all of some bindings. -/
def carries (r : Relation) (tuple : List (String × Key)) : Bool :=
  match r.common? tuple with
  | some s => !s.isEmpty
  | none => false

/-! ## Insertion -/

/-- A relation without its rows. -/
def clear (r : Relation) : Relation := { r with rows := #[], index := ∅ }

/-- A relation with one more row that binds nothing. -/
def addUnit (r : Relation) : Relation := { r with rows := r.rows.push Row.unit }

/-- A variable that is named twice has the same key in both places. -/
def consistent : List (String × Key) → Bool
  | [] => true
  | (var, k) :: rest => rest.all (fun p => p.1 ≠ var || p.2 = k) && consistent rest

/-- The row that binds variables to keys. -/
def rowOf (columns : List String) (tuple : List (String × Key)) : Row :=
  tuple.foldl (fun row p => row.set (columns.idxOf p.1) p.2) Row.unit

/-- A relation with one more row, which binds a tuple. -/
def append (r : Relation) (tuple : List (String × Key)) : Relation :=
  let columns := addColumns r.columns (tuple.map (·.1))
  let row := rowOf columns tuple
  { r with
    columns
    rows := r.rows.push row
    index := indexRow r.size row 0 columns r.index }

/-- A tuple that adds nothing: it has an empty key, or two keys for one variable,
or some row carries it. -/
def skips (r : Relation) (tuple : List (String × Key)) : Bool :=
  tuple.any (fun p => p.2.isEmpty) || !consistent tuple || r.carries tuple

/-- Insert a tuple, unless it adds nothing. -/
def insert (r : Relation) (tuple : List (String × Key)) : Except Fault Relation :=
  if r.skips tuple then .ok r
  else if r.limit ≤ r.size then .error (.rowLimit r.limit)
  else .ok (r.append tuple)

/-- Insert tuples in order.  At the first that finds the relation full the rest
is left out. -/
def insertAll (r : Relation) (vars : List String) : List (List Key) → Except Fault Unit × Relation
  | [] => (.ok (), r)
  | keys :: rest =>
    match r.insert (vars.zip keys) with
    | .ok r => insertAll r vars rest
    | .error e => (.error e, r)

/-! ## Projection -/

/-- The keys a row binds to variables, or none if one of them is unbound. -/
def tuple? (r : Relation) (vars : List String) (row : Row) : Option (List Key) :=
  vars.mapM fun var =>
    let k := r.valueIn row var
    if k.isEmpty then none else some k

/-- The entries of a list that are not in a set and did not occur before. -/
def distinct (seen : Std.ExtTreeSet (List Key) compare) : List (List Key) → List (List Key)
  | [] => []
  | t :: ts => if t ∈ seen then distinct seen ts else t :: distinct (seen.insert t) ts

/-- The tuples that rows bind to variables, each once, in the order of first
occurrence.  Rows that do not bind all of them are left out. -/
def project (r : Relation) (vars : List String) : List (List Key) :=
  distinct ∅ (r.rows.toList.filterMap (r.tuple? vars))

end Relation

end TripleStore
