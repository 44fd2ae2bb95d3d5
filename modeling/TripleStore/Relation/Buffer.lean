import TripleStore.Relation.Row

/-!
# Row buffers

A row is kept in a buffer of bytes, with the 16 bytes of a key for each column up
to the last that was ever bound.  A column before it that is unbound has the
bytes of the empty key, which are zeros.

Joins drop rows and make new ones, so the buffers of dropped rows are kept in a
pool and used again.  A buffer is emptied when it is taken from the pool.

`value_ofRow` and `set_ofRow` say that buffers are read and written as rows are,
and `acquire_fst` that nothing is left in a buffer from its earlier use.
-/

namespace TripleStore

/-- The bytes of a row. -/
@[ext]
structure RowBuffer where
  /-- The keys of the first columns, one after the other. -/
  bytes : List UInt8
deriving DecidableEq, Repr, Inhabited

namespace RowBuffer

/-- A buffer without bytes. -/
def new : RowBuffer := ⟨[]⟩

/-- The key at a column, empty if the buffer ends before it does. -/
def value (b : RowBuffer) (i : Nat) : Key :=
  (Key.ofBytes? (b.bytes.drop (i * Key.size))).getD Key.empty

/-- A buffer of at least `n` bytes, filled up with zeros. -/
def grow (b : RowBuffer) (n : Nat) : RowBuffer :=
  ⟨b.bytes ++ List.replicate (n - b.bytes.length) 0⟩

/-- A buffer with a key written at a column, unless the key is empty. -/
def set (b : RowBuffer) (i : Nat) (k : Key) : RowBuffer :=
  if k.isEmpty then b
  else
    let long := b.grow ((i + 1) * Key.size)
    ⟨long.bytes.take (i * Key.size) ++ k.bytes ++ long.bytes.drop ((i + 1) * Key.size)⟩

/-- A buffer that was emptied. -/
def clear (b : RowBuffer) : RowBuffer := { b with bytes := [] }

/-- A buffer with what another one has in place of its own. -/
def copyFrom (b other : RowBuffer) : RowBuffer := ⟨b.clear.bytes ++ other.bytes⟩

/-- The number of columns up to the last bound one. -/
def width (b : RowBuffer) : Nat := b.bytes.length / Key.size

/-- The row in a buffer. -/
def row (b : RowBuffer) : Row := ⟨(List.range b.width).map b.value⟩

/-- A buffer with the bytes of a row. -/
def ofRow (r : Row) : RowBuffer := ⟨r.cells.flatMap Key.bytes⟩

/-! ## Reading and writing -/

theorem length_flatMap_bytes (ks : List Key) :
    (ks.flatMap Key.bytes).length = ks.length * Key.size := by
  induction ks with
  | nil => rfl
  | cons k ks ih =>
    rw [List.flatMap_cons, List.length_append, ih, Key.length_bytes, List.length_cons, Key.size]
    omega

@[simp] theorem width_ofRow (r : Row) : (ofRow r).width = r.width := by
  rw [width, ofRow, length_flatMap_bytes]
  exact Nat.mul_div_cancel _ (by decide)

/-- A column has the key it has in the row. -/
@[simp] theorem value_ofRow (r : Row) (i : Nat) : (ofRow r).value i = r.value i := by
  show (Key.ofBytes? ((r.cells.flatMap Key.bytes).drop (i * Key.size))).getD Key.empty =
    r.cells.getD i Key.empty
  induction r.cells generalizing i with
  | nil => simp [Key.ofBytes?, Binary.splitExactly, Key.size]
  | cons k ks ih =>
    cases i with
    | zero => simp [Key.ofBytes?_append]
    | succ i =>
      have hskip : (i + 1) * Key.size = k.bytes.length + i * Key.size := by
        rw [Key.length_bytes, Key.size]
        omega
      rw [List.flatMap_cons, hskip, List.drop_append, List.drop_of_length_le (by omega),
        List.nil_append, Nat.add_sub_cancel_left, ih i, List.getD_cons_succ]

/-- The bytes after a key was written past the first column. -/
theorem set_cons {k : Key} (hk : k.isEmpty = false) (c : Key) (bs : List UInt8) (i : Nat) :
    (set ⟨c.bytes ++ bs⟩ (i + 1) k).bytes = c.bytes ++ (set ⟨bs⟩ i k).bytes := by
  have hc : c.bytes.length = Key.size := Key.length_bytes c
  have hstart : (i + 1) * Key.size = Key.size + i * Key.size := by
    rw [Nat.add_mul, Nat.one_mul, Nat.add_comm]
  have hend : (i + 1 + 1) * Key.size = Key.size + (i + 1) * Key.size := by
    rw [Nat.add_mul (i + 1), Nat.one_mul, Nat.add_comm]
  have hgrow : Key.size + (i + 1) * Key.size - (c.bytes ++ bs).length =
      (i + 1) * Key.size - bs.length := by
    rw [List.length_append, hc]
    omega
  have htake : ∀ (n : Nat) (cs : List UInt8),
      (c.bytes ++ cs).take (Key.size + n) = c.bytes ++ cs.take n := by
    intro n cs
    rw [← hc, List.take_length_add_append]
  have hdrop : ∀ (n : Nat) (cs : List UInt8), (c.bytes ++ cs).drop (Key.size + n) = cs.drop n := by
    intro n cs
    rw [← hc, List.drop_length_add_append]
  simp only [set, hk, Bool.false_eq_true, if_false, grow, hend, hgrow]
  rw [hstart, List.append_assoc c.bytes bs, htake, hdrop, List.append_assoc, List.append_assoc,
    List.append_assoc]

/-- The bytes after a key was written into the first column. -/
theorem set_zero {k : Key} (hk : k.isEmpty = false) (c : Key) (bs : List UInt8) :
    (set ⟨c.bytes ++ bs⟩ 0 k).bytes = k.bytes ++ bs := by
  have hc : c.bytes.length = Key.size := Key.length_bytes c
  simp [set, hk, grow, ← hc]

/-- Writing past the end of an empty buffer fills it up with an empty key first. -/
theorem set_new (i : Nat) (k : Key) :
    set ⟨[]⟩ (i + 1) k = if k.isEmpty then ⟨[]⟩ else set ⟨Key.empty.bytes ++ []⟩ (i + 1) k := by
  have hempty : Key.empty.bytes = List.replicate Key.size 0 := by decide
  have hfill : List.replicate Key.size (0 : UInt8) ++
      List.replicate ((i + 1 + 1) * Key.size - Key.size) 0 =
        List.replicate ((i + 1 + 1) * Key.size) 0 := by
    rw [List.replicate_append_replicate]
    congr 1
    rw [Key.size]
    omega
  cases hk : k.isEmpty with
  | true => simp [set, hk]
  | false => simp [set, hk, grow, hempty, hfill]

/-- A key is written where it is written in the row. -/
theorem set_ofRow (r : Row) (i : Nat) (k : Key) : (ofRow r).set i k = ofRow (r.set i k) := by
  cases hk : k.isEmpty with
  | true => simp [set, Row.set, hk]
  | false =>
    refine RowBuffer.ext ?_
    rw [Row.set, hk]
    show (set ⟨r.cells.flatMap Key.bytes⟩ i k).bytes = (Row.setCell r.cells i k).flatMap Key.bytes
    fun_induction Row.setCell r.cells i k with
    | case1 => simp [set, hk, grow, Key.size]
    | case2 k i ih =>
      rw [List.flatMap_nil] at ih ⊢
      rw [set_new, hk, if_neg Bool.false_ne_true, set_cons hk, ih hk, List.flatMap_cons]
    | case3 c cs k => rw [List.flatMap_cons, set_zero hk, List.flatMap_cons]
    | case4 c cs i k ih => rw [List.flatMap_cons, set_cons hk, ih hk, List.flatMap_cons]

/-- A row is read back. -/
theorem row_ofRow (r : Row) : (ofRow r).row = r := by
  refine Row.ext ?_
  rw [row, width_ofRow]
  refine List.ext_getElem (by simp [Row.width]) fun i hi hi' => ?_
  simp [Row.value, hi']

theorem copyFrom_eq (b other : RowBuffer) : b.copyFrom other = other := rfl

end RowBuffer

/-- The buffers of dropped rows, the last of them first. -/
structure RowPool where
  /-- The buffers. -/
  free : List RowBuffer

namespace RowPool

/-- A buffer without bytes, out of the pool if it has any. -/
def acquire (p : RowPool) : RowBuffer × RowPool :=
  match p.free with
  | [] => (.new, p)
  | b :: rest => (b.clear, ⟨rest⟩)

/-- Put the buffer of a dropped row into the pool. -/
def release (p : RowPool) (b : RowBuffer) : RowPool := ⟨b :: p.free⟩

/-- A buffer holds the row that binds nothing when it is taken, whatever it held before. -/
theorem acquire_fst (p : RowPool) : p.acquire.1 = RowBuffer.ofRow Row.unit := by
  unfold acquire
  split <;> rfl

end RowPool

end TripleStore
