import TripleStore.Relation.Buffer
import TripleStore.Relation.Join

/-!
# Relations in row buffers

A relation as it lies in memory.  Its rows are buffers of bytes, and the buffers
of dropped rows go to a pool, from which later rows are taken.  The column of a
variable is looked up in a map, which is filled as columns are added.  The index
is filled row by row from that map, and after a join it is built again from
nothing.

Slots are 32-bit numbers, so a row past the last slot cannot be indexed.

`view` is the relation that is kept.
-/

namespace TripleStore

/-- A table of bindings in row buffers. -/
structure BufferedRelation where
  /-- The variables, each once. -/
  columns : List String
  /-- The column of each variable. -/
  positions : Std.ExtTreeMap String Nat compare
  /-- The rows. -/
  rows : Array RowBuffer
  /-- The slots that carry a binding. -/
  index : RowIndex
  /-- The buffers that are free. -/
  pool : RowPool
  /-- The most rows there may be, if a limit was set. -/
  limit? : Option Nat

namespace BufferedRelation

/-- The most rows there may be. -/
def limit (b : BufferedRelation) : Nat := b.limit?.getD Relation.maxRows

/-- The relation in the buffers. -/
def view (b : BufferedRelation) : Relation :=
  ⟨b.columns, b.rows.map RowBuffer.row, b.index, b.limit⟩

/-- The key a row binds to a variable, empty if it does not bind the variable. -/
def valueIn (b : BufferedRelation) (row : RowBuffer) (var : String) : Key :=
  match b.positions[var]? with
  | some i => row.value i
  | none => Key.empty

/-! ## Columns -/

/-- The column of a variable, which is added unless it is there. -/
def ensureColumn (b : BufferedRelation) (var : String) : Nat × BufferedRelation :=
  match b.positions[var]? with
  | some i => (i, b)
  | none =>
    let i := b.columns.length
    (i, { b with columns := b.columns ++ [var], positions := b.positions.insert var i })

/-- The columns of variables, which are added unless they are there. -/
def ensureColumns (b : BufferedRelation) : List String → List Nat × BufferedRelation
  | [] => ([], b)
  | var :: vars =>
    let first := b.ensureColumn var
    let rest := first.2.ensureColumns vars
    (first.1 :: rest.1, rest.2)

/-- A table without columns, rows and a limit. -/
def empty : BufferedRelation := ⟨[], ∅, #[], ∅, ⟨[]⟩, none⟩

/-- A table over variables that has no rows. -/
def new (vars : List String) : BufferedRelation := (empty.ensureColumns vars).2

/-- A table over variables that has no rows and may not have more than `limit`. -/
def withLimit (vars : List String) (limit : Nat) : BufferedRelation :=
  { new vars with limit? := some (min limit Relation.maxRows) }

/-! ## The index -/

/-- The slots found so far that carry all of some bindings, or none if one of the bindings
is nowhere.  Before the first binding there are no slots yet. -/
def meet (index : RowIndex) : Option Slots → List (String × Key) → Option Slots
  | sofar, [] => sofar
  | sofar, (var, k) :: rest =>
    match index[var]?.bind fun m => m[k]? with
    | none => none
    | some s =>
      meet index (some (match sofar with | none => s | some t => t ∩ s)) rest

/-- An index with the bindings of a row in the columns of variables. -/
def indexBindings (slot : Nat) (row : RowBuffer) (positions : List (String × Nat))
    (index : RowIndex) : RowIndex :=
  positions.foldl (fun index p =>
    let k := row.value p.2
    if k.isEmpty then index else Relation.indexCell index slot p.1 k) index

/-- Put a row into the index. -/
def indexRow (b : BufferedRelation) (slot : Nat) (row : RowBuffer) :
    Except Fault Unit × BufferedRelation :=
  if UInt32.size ≤ slot then (.error (.rowLimit Relation.maxRows), b)
  else (.ok (), { b with index := indexBindings slot row b.positions.toList b.index })

/-- Put rows into the index, the first of which has the number `slot`. -/
def indexRows (b : BufferedRelation) : Nat → List RowBuffer → Except Fault Unit × BufferedRelation
  | _, [] => (.ok (), b)
  | slot, row :: rows =>
    match b.indexRow slot row with
    | (.ok _, b) => b.indexRows (slot + 1) rows
    | (.error e, b) => (.error e, b)

/-- Build the index from the rows. -/
def rebuildIndex (b : BufferedRelation) : Except Fault Unit × BufferedRelation :=
  { b with index := ∅ }.indexRows 0 b.rows.toList

/-! ## Rows -/

/-- A table without its rows. -/
def clear (b : BufferedRelation) : BufferedRelation :=
  { b with rows := #[], index := ∅, pool := b.rows.foldl RowPool.release b.pool }

/-- A table with one more row that binds nothing. -/
def addUnit (b : BufferedRelation) : BufferedRelation :=
  let new := b.pool.acquire
  { b with rows := b.rows.push new.1, pool := new.2 }

/-- Decide whether one row carries all of some bindings. -/
def carries (b : BufferedRelation) (tuple : List (String × Key)) : Bool :=
  match meet b.index none tuple with
  | some s => !s.isEmpty
  | none => false

/-- A tuple that adds nothing. -/
def skips (b : BufferedRelation) (tuple : List (String × Key)) : Bool :=
  tuple.any (fun p => p.2.isEmpty) || !Relation.consistent tuple || b.carries tuple

/-- Insert a tuple, unless it adds nothing. -/
def insert (b : BufferedRelation) (tuple : List (String × Key)) :
    Except Fault Unit × BufferedRelation :=
  if b.skips tuple then (.ok (), b)
  else if b.limit ≤ b.rows.size then (.error (.rowLimit b.limit), b)
  else
    let wide := b.ensureColumns (tuple.map (·.1))
    let new := wide.2.pool.acquire
    let row := (wide.1.zip (tuple.map (·.2))).foldl (fun row p => row.set p.1 p.2) new.1
    { wide.2 with rows := b.rows.push row, pool := new.2 }.indexRow b.rows.size row

/-- Insert tuples in order.  At the first that fails the rest is left out. -/
def insertAll (b : BufferedRelation) (vars : List String) :
    List (List Key) → Except Fault Unit × BufferedRelation
  | [] => (.ok (), b)
  | keys :: rest =>
    match b.insert (vars.zip keys) with
    | (.ok _, b) => b.insertAll vars rest
    | (.error e, b) => (.error e, b)

/-! ## Joins -/

/-- The rows of another table that agree with a row, found in the index. -/
def partners (b other : BufferedRelation) (on : List String) (row : RowBuffer) : List RowBuffer :=
  if on.isEmpty then other.rows.toList
  else
    match on.mapM fun var => b.positions[var]?.map fun i => (var, row.value i) with
    | none => []
    | some bs =>
      match meet other.index none bs with
      | none => []
      | some slots => slots.toList.filterMap fun i => other.rows[i]?

/-- A row overwritten by what another row binds, in a buffer from the pool.  Each target is
a column here with the column of the other row that goes to it. -/
def joinRow (targets : List (Nat × Nat)) (row other : RowBuffer) (pool : RowPool) :
    RowBuffer × RowPool :=
  let new := pool.acquire
  (targets.foldl (fun b t => b.set t.1 (other.value t.2)) (new.1.copyFrom row), new.2)

/-- A row overwritten by each of its partners. -/
def joinRowAll (targets : List (Nat × Nat)) (row : RowBuffer) :
    List RowBuffer → RowPool → List RowBuffer × RowPool
  | [], pool => ([], pool)
  | other :: others, pool =>
    let new := joinRow targets row other pool
    let rest := joinRowAll targets row others new.2
    (new.1 :: rest.1, rest.2)

/-- The rows of a join onto those made before, and the pool.  The first answer says that there
are more than `limit`, and the rows made until then are given. -/
def joinRows (limit : Nat) (partners : RowBuffer → List RowBuffer) (targets : List (Nat × Nat)) :
    List RowBuffer → Array RowBuffer → RowPool → Bool × Array RowBuffer × RowPool
  | [], done, pool => (false, done, pool)
  | row :: rows, done, pool =>
    let ps := partners row
    if limit < done.size + ps.length then (true, done, pool)
    else
      let new := joinRowAll targets row ps pool
      joinRows limit partners targets rows (done ++ new.1.toArray) new.2

/-- Join with another table on variables. -/
def join (b other : BufferedRelation) (on : List String) : Except Fault Unit × BufferedRelation :=
  let wide := b.ensureColumns other.columns
  match joinRows b.limit (wide.2.partners other on) wide.1.zipIdx b.rows.toList #[] b.pool with
  | (full, rows, pool) =>
    let joined := { wide.2 with rows, pool := b.rows.foldl RowPool.release pool }
    if full then (.error (.rowLimit b.limit), joined.clear) else joined.rebuildIndex

/-- Take over the rows of another table in place of one's own. -/
def replaceWith (b other : BufferedRelation) : Except Fault Unit × BufferedRelation :=
  b.clear.addUnit.join other []

end BufferedRelation

end TripleStore
