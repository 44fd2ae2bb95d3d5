import TripleStore.Binary
import TripleStore.Checksum
import TripleStore.Uri

/-!
# Keys

A key names a term in one version of one graph.  It is 16 bytes: the checksum of
the graph's name, the checksum of the term, and the version.  All three numbers
are big-endian, so byte order puts the entities of a graph together and the
versions of an entity in the order of time.

The key of zeros means "no value".  A row of bindings uses it where a variable
is not bound.

`ofBytes?_bytes` says that the bytes of a key are read back, and
`Key.compare_eq_iff` that the order on keys tells them apart.
-/

namespace TripleStore

/-- A term in a version of a graph. -/
@[ext]
structure Key where
  /-- The checksum of the graph's name. -/
  graph : UInt32
  /-- The checksum of the term. -/
  name : UInt32
  /-- The version of the graph. -/
  version : UInt64
deriving DecidableEq, Repr, Inhabited

namespace Key

/-- The key that means "no value". -/
def empty : Key := ⟨0, 0, 0⟩

/-- The key of a term in a version of a graph. -/
def ofUri (graph : String) (u : Uri) (version : UInt64) : Key :=
  ⟨Checksum.ofText graph, Checksum.ofText u.hashInput, version⟩

/-- Decide whether a key means "no value". -/
def isEmpty (k : Key) : Bool := k = empty

/-- Two keys name the same term, whatever their graphs and versions. -/
def sameName (k l : Key) : Bool := k.name == l.name

/-- The same term of the same graph in another version. -/
def atVersion (k : Key) (version : UInt64) : Key := { k with version }

/-! ## Bytes -/

/-- The number of bytes of a key. -/
def size : Nat := 16

/-- The bytes that all versions of an entity start with. -/
def entityBytes (k : Key) : List UInt8 :=
  Binary.bigEndian 4 k.graph.toNat ++ Binary.bigEndian 4 k.name.toNat

/-- The bytes of a key. -/
def bytes (k : Key) : List UInt8 :=
  k.entityBytes ++ Binary.bigEndian 8 k.version.toNat

/-- The key that 16 bytes spell. -/
def ofBytes (bs : List UInt8) : Key where
  graph := UInt32.ofNat (Binary.ofBigEndian (bs.take 4))
  name := UInt32.ofNat (Binary.ofBigEndian ((bs.drop 4).take 4))
  version := UInt64.ofNat (Binary.ofBigEndian ((bs.drop 8).take 8))

/-- The key at the front of bytes, or none if there are too few. -/
def ofBytes? (bs : List UInt8) : Option Key :=
  (Binary.splitExactly size bs).map fun s => ofBytes s.1

/-- Take a key. -/
def decode : Binary.Decoder Key := do
  return ofBytes (← Binary.take size)

@[simp] theorem length_bytes (k : Key) : k.bytes.length = 16 := by
  simp [bytes, entityBytes]

theorem ofBytes_bytes (k : Key) : ofBytes k.bytes = k := by
  have hg : k.graph.toNat < Binary.capacity 4 := k.graph.toNat_lt
  have hn : k.name.toNat < Binary.capacity 4 := k.name.toNat_lt
  have hv : k.version.toNat < Binary.capacity 8 := k.version.toNat_lt
  have h1 : k.bytes.take 4 = Binary.bigEndian 4 k.graph.toNat := by
    simp [bytes, entityBytes]
  have h2 : (k.bytes.drop 4).take 4 = Binary.bigEndian 4 k.name.toNat := by
    simp [bytes, entityBytes]
  have h3 : (k.bytes.drop 8).take 8 = Binary.bigEndian 8 k.version.toNat := by
    have he : k.entityBytes.length = 8 := by simp [entityBytes]
    rw [bytes, ← he, List.drop_left, List.take_of_length_le (by simp [he])]
  rw [ofBytes, h1, h2, h3, Binary.ofBigEndian_bigEndian, Binary.ofBigEndian_bigEndian,
    Binary.ofBigEndian_bigEndian, Nat.mod_eq_of_lt hg, Nat.mod_eq_of_lt hn, Nat.mod_eq_of_lt hv]
  simp

/-- The bytes of a key are read back, whatever follows them. -/
theorem ofBytes?_append (k : Key) (bs : List UInt8) : ofBytes? (k.bytes ++ bs) = some k := by
  have := Binary.splitExactly_append k.bytes bs
  rw [length_bytes] at this
  simp [ofBytes?, size, this, ofBytes_bytes]

/-- The bytes of a key are read back. -/
theorem ofBytes?_bytes (k : Key) : ofBytes? k.bytes = some k := by
  simpa using ofBytes?_append k []

/-! ## Text -/

/-- The eight hexadecimal digits of a checksum. -/
def hex (w : UInt32) : String :=
  String.ofList ((List.range 8).map fun i => Nat.digitChar (w.toNat >>> (4 * (7 - i)) % 16))

/-- A key as written: the two checksums, `@`, and the version. -/
def text (k : Key) : String := hex k.graph ++ hex k.name ++ "@" ++ toString k.version.toNat

/-! ## Order -/

instance : Ord Key :=
  ⟨compareLex (compareOn Key.graph) (compareLex (compareOn Key.name) (compareOn Key.version))⟩

instance : Std.TransOrd Key :=
  inferInstanceAs (Std.TransCmp
    (compareLex (compareOn Key.graph) (compareLex (compareOn Key.name) (compareOn Key.version))))

theorem compare_eq_iff {k l : Key} : compare k l = .eq ↔ k = l := by
  show compareLex (compareOn Key.graph) (compareLex (compareOn Key.name) (compareOn Key.version))
    k l = .eq ↔ k = l
  rw [compareLex_eq_eq, compareLex_eq_eq]
  simp [compareOn, Key.ext_iff]

instance : Std.LawfulEqOrd Key := ⟨compare_eq_iff.1⟩

example : (Key.mk 0x01d41b76 0x05afacc2 10).text = "01d41b7605afacc2@10" := by decide

end Key

end TripleStore
