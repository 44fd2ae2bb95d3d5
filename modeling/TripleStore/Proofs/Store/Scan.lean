import TripleStore.Proofs.Store

/-!
# What a scan finds

A scan starts at the bytes it is given, filled up with zeros, and goes on as long
as keys start with them.  It finds all such keys, and each once, as keys are in
the lexicographic order of their bytes.  In that order the bytes filled up with
zeros come before all keys that start with them, and no other key lies between
two of these.

Bytes are in lexicographic order like the numbers they spell, if there are
equally many of them.  So the versions of a term in a graph are in the order of
time.
-/

namespace TripleStore

/-! ## The order of bytes -/

namespace Binary

theorem ofBigEndian_cons (a : UInt8) (as : List UInt8) :
    ofBigEndian (a :: as) = a.toNat * 256 ^ as.length + ofBigEndian as := by
  have hone : ofBigEndian [a] = a.toNat := by simp [ofBigEndian, ofLittleEndian]
  rw [← List.singleton_append, ofBigEndian_append, hone]

/-- Of two numbers the leading digits decide, and the others if these are the same. -/
theorem lead_add_lt_iff {unit a b m n : Nat} (hm : m < unit) (hn : n < unit) :
    a * unit + m < b * unit + n ↔ a < b ∨ a = b ∧ m < n := by
  constructor
  · intro hlt
    rcases Nat.lt_trichotomy a b with hab | hab | hab
    · exact .inl hab
    · rw [hab] at hlt
      exact .inr ⟨hab, by omega⟩
    · have hle : (b + 1) * unit ≤ a * unit := Nat.mul_le_mul_right unit hab
      rw [Nat.succ_mul] at hle
      omega
  · rintro (hab | ⟨rfl, hmn⟩)
    · have hle : (a + 1) * unit ≤ b * unit := Nat.mul_le_mul_right unit hab
      rw [Nat.succ_mul] at hle
      omega
    · omega

/-- Equally many bytes are in the order of their numbers. -/
theorem lt_iff_ofBigEndian_lt {as bs : List UInt8} (hlen : as.length = bs.length) :
    as < bs ↔ ofBigEndian as < ofBigEndian bs := by
  induction as generalizing bs with
  | nil =>
    obtain rfl := List.length_eq_zero_iff.mp hlen.symm
    exact iff_of_false (List.lt_irrefl []) (Nat.lt_irrefl _)
  | cons a as ih =>
    cases bs with
    | nil => cases hlen
    | cons b bs =>
      have hlen : as.length = bs.length := Nat.succ.inj hlen
      have has : ofBigEndian as < 256 ^ bs.length := hlen ▸ ofBigEndian_lt as
      rw [List.cons_lt_cons_iff, ih hlen, ofBigEndian_cons, ofBigEndian_cons, hlen,
        lead_add_lt_iff has (ofBigEndian_lt bs), UInt8.lt_iff_toNat_lt, UInt8.toNat_inj]

end Binary

/-! ## The order of keys -/

namespace Key

/-- Keys are in the lexicographic order of their bytes. -/
theorem compare_eq_lt_iff_bytes {k l : Key} : compare k l = .lt ↔ k.bytes < l.bytes := by
  rw [compare_eq_lt_iff, ← ofBigEndian_bytes, ← ofBigEndian_bytes,
    Binary.lt_iff_ofBigEndian_lt (by simp)]

/-- The versions of a term in a graph are in the order of time. -/
theorem bytes_ofUri_lt_iff {graph : String} {u : Uri} {v w : UInt64} :
    (ofUri graph u v).bytes < (ofUri graph u w).bytes ↔ v < w := by
  rw [← compare_eq_lt_iff_bytes, compare_eq_lt_iff, UInt64.lt_iff_toNat_lt]
  exact Nat.add_lt_add_iff_left

end Key

/-! ## Scans -/

namespace Store

theorem mem_scan_iff {s : Store} {lead : List UInt8} {k : Key} {r : StoredRecord} :
    (k, r) ∈ s.scan lead ↔ s.record k = .ok r ∧ lead <+: k.bytes := by
  rw [scan_eq_filter, List.mem_filter, mem_records_iff, startsWith, List.isPrefixOf_iff_prefix]

theorem scan_ascending (s : Store) (lead : List UInt8) :
    (s.scan lead).Pairwise fun d e => d.1.bytes < e.1.bytes := by
  have hord : s.records.toList.Pairwise fun d e => compare d.1 e.1 = .lt :=
    Std.ExtTreeMap.ordered_keys_toList
  rw [scan_eq_filter]
  exact (hord.filter _).imp Key.compare_eq_lt_iff_bytes.mp

/-- Whatever the store holds and however many bytes are given, a scan finds the records whose keys
start with the bytes and no others, each once and in ascending order of the bytes of their keys.
This order is the one of keys, which is the one of times for the keys of a term in a graph, and a
key is read back from its bytes. -/
theorem scan_exact (s : Store) (lead : List UInt8) :
    (∀ k r, (k, r) ∈ s.scan lead ↔ s.record k = .ok r ∧ lead <+: k.bytes) ∧
      (s.scan lead).Pairwise (fun d e => d.1.bytes < e.1.bytes) ∧
      (∀ k l : Key, compare k l = .lt ↔ k.bytes < l.bytes) ∧
      (∀ graph u v w, (Key.ofUri graph u v).bytes < (Key.ofUri graph u w).bytes ↔ v < w) ∧
      ∀ k : Key, Key.ofBytes? k.bytes = some k :=
  ⟨fun _ _ => mem_scan_iff, scan_ascending s lead, fun _ _ => Key.compare_eq_lt_iff_bytes,
    fun _ _ _ _ => Key.bytes_ofUri_lt_iff, Key.ofBytes?_bytes⟩

end Store

end TripleStore
