import Std.Data.ExtTreeSet.Lemmas
import TripleStore.Key

/-!
# Sets of keys

A set of keys is enumerated in ascending order.  A key has 16 bytes, so there are
finitely many keys and no set of them has more than `maxSize`.  A process that
adds a key to a set in every step therefore ends, which is how walks over a graph
are known to end whatever the store holds.
-/

namespace TripleStore

/-- A set of keys, enumerated in ascending order. -/
abbrev Keys := Std.ExtTreeSet Key compare

namespace Keys

/-- The set of the keys of a list. -/
def ofList (ks : List Key) : Keys := Std.ExtTreeSet.ofList ks compare

/-- A set with more keys. -/
def addAll (s : Keys) (ks : List Key) : Keys := ks.foldl (fun s k => s.insert k) s

theorem mem_insert_iff {s : Keys} {k l : Key} : l ∈ s.insert k ↔ k = l ∨ l ∈ s := by
  rw [Std.ExtTreeSet.mem_insert, Std.LawfulEqOrd.compare_eq_iff_eq]

theorem mem_addAll {s : Keys} {ks : List Key} {k : Key} : k ∈ addAll s ks ↔ k ∈ s ∨ k ∈ ks := by
  induction ks generalizing s with
  | nil => simp [addAll]
  | cons l ks ih =>
    show k ∈ addAll (s.insert l) ks ↔ _
    rw [ih, mem_insert_iff, List.mem_cons, eq_comm (a := l)]
    constructor
    · rintro ((h | h) | h)
      · exact .inr (.inl h)
      · exact .inl h
      · exact .inr (.inr h)
    · rintro (h | h | h)
      · exact .inl (.inr h)
      · exact .inl (.inl h)
      · exact .inr h

theorem mem_ofList {ks : List Key} {k : Key} : k ∈ ofList ks ↔ k ∈ ks := by
  have : Std.LawfulBEqCmp (α := Key) compare :=
    ⟨by intro a b; rw [Std.LawfulEqOrd.compare_eq_iff_eq, beq_iff_eq]⟩
  simp [ofList, Std.ExtTreeSet.mem_ofList]

/-! ## Finiteness -/

/-- The number of keys. -/
def maxSize : Nat := UInt32.size * UInt32.size * UInt64.size

/-- The number of a key. -/
def number (k : Key) : Nat :=
  (k.graph.toNat * UInt32.size + k.name.toNat) * UInt64.size + k.version.toNat

theorem number_lt (k : Key) : number k < maxSize := by
  have hg := k.graph.toNat_lt
  have hn := k.name.toNat_lt
  have hv := k.version.toNat_lt
  simp only [number, maxSize, UInt32.size, UInt64.size]
  omega

theorem number_inj {k l : Key} (h : number k = number l) : k = l := by
  have hn := k.name.toNat_lt
  have hn' := l.name.toNat_lt
  have hv := k.version.toNat_lt
  have hv' := l.version.toNat_lt
  simp only [number, UInt32.size, UInt64.size] at h
  have h1 : k.graph.toNat = l.graph.toNat := by omega
  have h2 : k.name.toNat = l.name.toNat := by omega
  have h3 : k.version.toNat = l.version.toNat := by omega
  exact Key.ext (UInt32.toNat_inj.mp h1) (UInt32.toNat_inj.mp h2) (UInt64.toNat_inj.mp h3)

theorem size_le (s : Keys) : s.size ≤ maxSize := by
  have hnd : (s.toList.map number).Nodup := by
    have ho : s.toList.Pairwise fun a b => compare a b = .lt := Std.ExtTreeSet.ordered_toList
    refine (ho.imp ?_).map number fun _ _ h => h
    intro a b hab he
    have hself : compare b b = .eq := Std.ReflCmp.compare_self
    rw [number_inj he, hself] at hab
    cases hab
  have hsub : s.toList.map number ⊆ List.range maxSize := by
    intro n hn
    obtain ⟨k, -, rfl⟩ := List.mem_map.mp hn
    exact List.mem_range.mpr (number_lt k)
  have := hnd.length_le_of_subset hsub
  rwa [List.length_map, Std.ExtTreeSet.length_toList, List.length_range] at this

theorem size_insert {s : Keys} {k : Key} (h : k ∉ s) : (s.insert k).size = s.size + 1 := by
  rw [Std.ExtTreeSet.size_insert, if_neg (by rwa [Std.ExtTreeSet.contains_iff_mem])]

/-- Adding a key leaves fewer keys to add. -/
theorem room_insert {s : Keys} {k : Key} (h : k ∉ s) :
    maxSize - (s.insert k).size < maxSize - s.size := by
  have hs := size_insert h
  have hl := size_le (s.insert k)
  omega

/-- What is left after dropping the keys of a set starts with a new key. -/
theorem new_of_dropWhile {s : Keys} {ks rest : List Key} {k : Key}
    (h : ks.dropWhile s.contains = k :: rest) : k ∉ s := by
  have := List.head_dropWhile_not s.contains (l := ks) (by simp [h])
  simp only [h, List.head_cons] at this
  rw [Std.ExtTreeSet.mem_iff_contains, this]
  decide

end Keys

end TripleStore
