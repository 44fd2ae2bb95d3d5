import TripleStore.Keys
import TripleStore.Proofs.Binary.Number

/-!
# Keys and the numbers of their bytes

A key is its bytes, and the order of keys is the order of their bytes, read as
one number.
-/

namespace TripleStore

namespace Key

open Binary

theorem ofBigEndian_bytes (k : Key) : ofBigEndian k.bytes = Keys.number k := by
  have hg : k.graph.toNat % 256 ^ 4 = k.graph.toNat := Nat.mod_eq_of_lt k.graph.toNat_lt
  have hn : k.name.toNat % 256 ^ 4 = k.name.toNat := Nat.mod_eq_of_lt k.name.toNat_lt
  have hv : k.version.toNat % 256 ^ 8 = k.version.toNat := Nat.mod_eq_of_lt k.version.toNat_lt
  rw [bytes, entityBytes, ofBigEndian_append, ofBigEndian_append, ofBigEndian_bigEndian,
    ofBigEndian_bigEndian, ofBigEndian_bigEndian, capacity_eq, capacity_eq, hg, hn, hv,
    length_bigEndian, length_bigEndian]
  rfl

theorem bytes_ofBytes {bs : List UInt8} (h : bs.length = 16) : (ofBytes bs).bytes = bs := by
  have hpart : ∀ {n : Nat} {cs : List UInt8}, cs.length = n → bigEndian n (ofBigEndian cs) = cs :=
    fun hn => hn ▸ bigEndian_ofBigEndian _
  have hg : (bs.take 4).length = 4 := by simp [h]
  have hn : ((bs.drop 4).take 4).length = 4 := by simp [h]
  have hv : ((bs.drop 8).take 8).length = 8 := by simp [h]
  have hg' := ofBigEndian_lt (bs.take 4)
  have hn' := ofBigEndian_lt ((bs.drop 4).take 4)
  have hv' := ofBigEndian_lt ((bs.drop 8).take 8)
  rw [hg] at hg'
  rw [hn] at hn'
  rw [hv] at hv'
  rw [bytes, entityBytes, ofBytes, UInt32.toNat_ofNat_of_lt' hg', UInt32.toNat_ofNat_of_lt' hn',
    UInt64.toNat_ofNat_of_lt' hv', hpart hg, hpart hn, hpart hv]
  have hrest : (bs.drop 8).take 8 = bs.drop 8 := List.take_of_length_le (by simp [h])
  have hmid : (bs.drop 4).take 4 ++ bs.drop 8 = bs.drop 4 := by
    have hsplit := List.take_append_drop 4 (bs.drop 4)
    rwa [List.drop_drop] at hsplit
  rw [hrest, List.append_assoc, hmid, List.take_append_drop]

/-- Keys are ordered like the numbers of their bytes. -/
theorem compare_eq_lt_iff {k l : Key} : compare k l = .lt ↔ Keys.number k < Keys.number l := by
  have hg := k.graph.toNat_lt
  have hg' := l.graph.toNat_lt
  have hn := k.name.toNat_lt
  have hn' := l.name.toNat_lt
  have hv := k.version.toNat_lt
  have hv' := l.version.toNat_lt
  have hgraph : compare k.graph l.graph = .lt ↔ k.graph.toNat < l.graph.toNat := by
    rw [Std.compare_eq_lt, UInt32.lt_iff_toNat_lt]
  have hname : compare k.name l.name = .lt ↔ k.name.toNat < l.name.toNat := by
    rw [Std.compare_eq_lt, UInt32.lt_iff_toNat_lt]
  have hversion : compare k.version l.version = .lt ↔ k.version.toNat < l.version.toNat := by
    rw [Std.compare_eq_lt, UInt64.lt_iff_toNat_lt]
  show ((compare k.graph l.graph).then
    ((compare k.name l.name).then (compare k.version l.version))) = .lt ↔ _
  rw [Ordering.then_eq_lt, Ordering.then_eq_lt, hgraph, hname, hversion,
    Std.LawfulEqOrd.compare_eq_iff_eq, Std.LawfulEqOrd.compare_eq_iff_eq, ← UInt32.toNat_inj,
    ← UInt32.toNat_inj]
  simp only [Keys.number, UInt32.size, UInt64.size]
  omega

end Key

end TripleStore
