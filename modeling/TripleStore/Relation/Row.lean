import TripleStore.Key

/-!
# Rows of bindings

A row holds one key per column, from the first column up to the last that was
ever bound.  A column after that, or one that holds the empty key, is unbound.
Writing the empty key changes nothing, so a bound column stays bound.

`value_set` says what a written key does to every column.
-/

namespace TripleStore

/-- One tuple of bindings. -/
@[ext]
structure Row where
  /-- The keys of the first columns. -/
  cells : List Key
deriving DecidableEq, Repr, Inhabited

namespace Row

/-- The row that binds nothing. -/
def unit : Row := ⟨[]⟩

/-- The key at a column, empty if the column is unbound. -/
def value (r : Row) (i : Nat) : Key := r.cells.getD i Key.empty

/-- Cells with a key written at a position, after empty keys if need be. -/
def setCell : List Key → Nat → Key → List Key
  | [], 0, k => [k]
  | [], i + 1, k => Key.empty :: setCell [] i k
  | _ :: cs, 0, k => k :: cs
  | c :: cs, i + 1, k => c :: setCell cs i k

/-- A row with a key written at a column, unless the key is empty. -/
def set (r : Row) (i : Nat) (k : Key) : Row :=
  if k.isEmpty then r else ⟨setCell r.cells i k⟩

/-- The number of columns up to the last bound one. -/
def width (r : Row) : Nat := r.cells.length

theorem getD_setCell (cs : List Key) (i j : Nat) (k : Key) :
    (setCell cs i k).getD j Key.empty = if i = j then k else cs.getD j Key.empty := by
  fun_induction setCell cs i k generalizing j with
  | case1 => cases j <;> simp
  | case2 i _ ih => cases j <;> simp_all
  | case3 => cases j <;> simp
  | case4 i _ _ _ ih => cases j <;> simp_all

/-- A key that is not empty is found where it was written, and no other column changes. -/
theorem value_set (r : Row) (i j : Nat) (k : Key) (hk : k.isEmpty = false) :
    (r.set i k).value j = if i = j then k else r.value j := by
  rw [set, hk]
  exact getD_setCell r.cells i j k

@[simp] theorem set_empty (r : Row) (i : Nat) : r.set i Key.empty = r := by
  simp [set, Key.isEmpty]

end Row

end TripleStore
