import TripleStore.Proofs.Entity.Record
import TripleStore.Store

/-!
# Reading a store

Keys are in the order of their numbers.  Those that start with the same bytes have
the same leading digits, so they are neighbours, and a scan from the least of them
finds all of them.

Entities that are put under different keys are read back, and the records of
other keys stay what they were.
-/

namespace TripleStore

namespace Store

open Binary

/-! ## Keys that start with the same bytes -/

/-- The numbers of the keys that start with some bytes have the number of these as their
leading digits. -/
theorem startsWith_iff {lead : List UInt8} (hlen : lead.length ≤ 16) (k : Key) :
    startsWith lead k = true ↔ Keys.number k / 256 ^ (16 - lead.length) = ofBigEndian lead := by
  have hsplit := List.take_append_drop lead.length k.bytes
  have htake : (k.bytes.take lead.length).length = lead.length := by simp [hlen]
  have hdrop : (k.bytes.drop lead.length).length = 16 - lead.length := by simp
  have hnum : Keys.number k / 256 ^ (16 - lead.length) =
      ofBigEndian (k.bytes.take lead.length) := by
    rw [← Key.ofBigEndian_bytes, ← hsplit, ofBigEndian_append, hsplit, hdrop, Nat.mul_comm,
      Nat.mul_add_div (Nat.pow_pos (by decide)), Nat.div_eq_of_lt, Nat.add_zero]
    rw [← hdrop]
    exact ofBigEndian_lt _
  rw [startsWith, List.isPrefixOf_iff_prefix, List.prefix_iff_eq_take, hnum]
  constructor
  · intro h
    rw [← h]
  · intro h
    exact (ofBigEndian_inj htake h).symm

theorem number_leastKey {lead : List UInt8} (hlen : lead.length ≤ 16) :
    Keys.number (leastKey lead) = ofBigEndian lead * 256 ^ (16 - lead.length) := by
  have htake : (lead ++ List.replicate Key.size 0).take Key.size =
      lead ++ List.replicate (16 - lead.length) 0 := by
    have hrest : min (Key.size - lead.length) Key.size = 16 - lead.length := by
      simp only [Key.size]
      omega
    have hlead : lead.take Key.size = lead := List.take_of_length_le hlen
    rw [List.take_append, hlead, List.take_replicate, hrest]
  rw [leastKey, htake, ← Key.ofBigEndian_bytes, Key.bytes_ofBytes (by simp; omega),
    ofBigEndian_append, ofBigEndian_replicate_zero, List.length_replicate, Nat.add_zero]

/-! ## Scans -/

/-- Of a list on which one property comes before another, the second one is found
by dropping the first. -/
theorem takeWhile_dropWhile_eq_filter {α : Type} {p q : α → Bool} {l : List α}
    (hdisj : ∀ x ∈ l, q x = true → p x = false)
    (hord : l.Pairwise fun x y => (p y = true → p x = true) ∧
      (q y = true → p x = false → q x = true)) :
    (l.dropWhile p).takeWhile q = l.filter q := by
  induction l with
  | nil => rfl
  | cons x l ih =>
    obtain ⟨hx, hl⟩ := List.pairwise_cons.mp hord
    have ih := ih (fun y hy => hdisj y (List.mem_cons_of_mem _ hy)) hl
    cases hp : p x with
    | true =>
      have hq : q x = false := by
        cases hq : q x with
        | false => rfl
        | true => rw [hdisj x List.mem_cons_self hq] at hp; cases hp
      rw [List.dropWhile_cons_of_pos hp, List.filter_cons_of_neg (by simp [hq]), ih]
    | false =>
      have hnone : l.dropWhile p = l := by
        cases l with
        | nil => rfl
        | cons y l =>
          refine List.dropWhile_cons_of_neg fun hy => ?_
          rw [(hx y List.mem_cons_self).1 hy] at hp
          cases hp
      rw [List.dropWhile_cons_of_neg (by simp [hp])]
      cases hq : q x with
      | true => rw [List.takeWhile_cons_of_pos hq, List.filter_cons_of_pos hq, ← ih, hnone]
      | false =>
        rw [List.takeWhile_cons_of_neg (by simp [hq]), List.filter_cons_of_neg (by simp [hq])]
        refine (List.filter_eq_nil_iff.mpr fun y hy hqy => ?_).symm
        rw [(hx y hy).2 hqy hp] at hq
        cases hq

/-- A scan finds the records whose keys start with the bytes. -/
theorem scan_eq_filter (s : Store) (lead : List UInt8) :
    s.scan lead = s.records.toList.filter fun e => startsWith lead e.1 := by
  rw [scan]
  by_cases hlen : lead.length ≤ 16
  · obtain ⟨unit, hunit⟩ : ∃ unit, unit = 256 ^ (16 - lead.length) := ⟨_, rfl⟩
    have hpos : 0 < unit := hunit ▸ Nat.pow_pos (by decide)
    have hleast := number_leastKey hlen
    have hstarts := startsWith_iff hlen
    rw [← hunit] at hleast hstarts
    have hbelow : ∀ k : Key, decide (compare k (leastKey lead) = .lt) = true ↔
        Keys.number k < ofBigEndian lead * unit := by
      intro k
      rw [decide_eq_true_eq, Key.compare_eq_lt_iff, hleast]
    have hnotBelow : ∀ k : Key, decide (compare k (leastKey lead) = .lt) = false ↔
        ofBigEndian lead * unit ≤ Keys.number k := by
      intro k
      rw [← Bool.not_eq_true, hbelow, not_lt]
    refine takeWhile_dropWhile_eq_filter (fun x _ hq => ?_) ?_
    · rw [hnotBelow, ← (hstarts x.1).mp hq]
      exact Nat.div_mul_le_self _ _
    · have hord : s.records.toList.Pairwise fun x y => compare x.1 y.1 = .lt :=
        Std.ExtTreeMap.ordered_keys_toList
      refine hord.imp fun {x y} hxy => ?_
      have hlt := Key.compare_eq_lt_iff.mp hxy
      refine ⟨fun hp => ?_, fun hq hp => ?_⟩
      · rw [hbelow] at hp ⊢
        omega
      · -- the number lies between two with the same leading digits
        have hy := (hstarts y.1).mp hq
        refine (hstarts x.1).mpr (Nat.le_antisymm ?_ ?_)
        · exact hy ▸ Nat.div_le_div_right (Nat.le_of_lt hlt)
        · exact (Nat.le_div_iff_mul_le hpos).mpr ((hnotBelow x.1).mp hp)
  · have hnone : ∀ k, startsWith lead k = false := by
      intro k
      rw [← Bool.not_eq_true, startsWith, List.isPrefixOf_iff_prefix]
      intro hpre
      have hle := hpre.length_le
      rw [Key.length_bytes] at hle
      exact hlen hle
    simp only [hnone, List.filter_false]
    generalize s.records.toList.dropWhile _ = rest
    cases rest with
    | nil => rfl
    | cons e rest => rfl

/-- The keys of a graph are those that start with its checksum. -/
theorem startsWith_graph {g : UInt32} {k : Key} :
    startsWith (bigEndian 4 g.toNat) k = true ↔ k.graph = g := by
  have hlen : (bigEndian 4 g.toNat).length = 4 := length_bigEndian 4 g.toNat
  have hg : g.toNat < capacity 4 := g.toNat_lt
  have hn := k.name.toNat_lt
  have hv := k.version.toNat_lt
  have hlead : Keys.number k / 256 ^ 12 = k.graph.toNat := by
    simp only [Keys.number, UInt32.size, UInt64.size]
    omega
  rw [startsWith_iff (by omega), hlen, ofBigEndian_bigEndian, Nat.mod_eq_of_lt hg, hlead,
    UInt32.toNat_inj]

theorem mem_records_iff {s : Store} {k : Key} {r : StoredRecord} :
    (k, r) ∈ s.records.toList ↔ s.record k = .ok r := by
  rw [Std.ExtTreeMap.mem_toList_iff_getElem?_eq_some, record]
  cases s.records[k]? with
  | none => simp
  | some r' => simp

/-! ## Records that are put -/

theorem record_put (s : Store) (k l : Key) (bytes : List UInt8) :
    (s.put k bytes).record l = if k = l then .ok (.ofBytes bytes) else s.record l := by
  simp only [record, put, Std.ExtTreeMap.getElem?_insert, Std.LawfulEqOrd.compare_eq_iff_eq]
  by_cases h : k = l
  · simp [h]
  · simp [h]

/-- The records of other keys stay. -/
theorem record_putEntities_of_ne {s : Store} {es : List Entity} {k : Key}
    (h : ∀ e ∈ es, e.key ≠ k) : (s.putEntities es).record k = s.record k := by
  induction es generalizing s with
  | nil => rfl
  | cons e es ih =>
    show ((s.putEntity e).putEntities es).record k = _
    rw [ih fun e he => h e (List.mem_cons_of_mem _ he), putEntity, record_put,
      if_neg (h e List.mem_cons_self)]

/-- Entities with different keys get the records made of them. -/
theorem record_putEntities {s : Store} {es : List Entity} {e : Entity}
    (hnd : (es.map Entity.key).Nodup) (he : e ∈ es) :
    (s.putEntities es).record e.key = .ok (.ofBytes e.encode) := by
  induction es generalizing s with
  | nil => cases he
  | cons e' es ih =>
    obtain ⟨hnew, hnd⟩ := List.nodup_cons.mp hnd
    show ((s.putEntity e').putEntities es).record e.key = _
    rcases List.mem_cons.mp he with rfl | he
    · have hother : ∀ e' ∈ es, e'.key ≠ e.key :=
        fun e' he' heq => hnew (List.mem_map.mpr ⟨e', he', heq⟩)
      rw [record_putEntities_of_ne hother, putEntity, record_put, if_pos rfl]
    · exact ih hnd he

theorem entity_of_record {s s' : Store} {k : Key} (h : s.record k = s'.record k) :
    s.entity k = s'.entity k := by
  rw [entity, entity, h]

theorem entity_putEntities {s : Store} {es : List Entity} {e : Entity}
    (hnd : (es.map Entity.key).Nodup) (he : e ∈ es) (hrec : e.Recordable) :
    (s.putEntities es).entity e.key = .ok e := by
  have hread : (StoredRecord.ofBytes e.encode).entity = Entity.decode e.encode :=
    StoredRecord.entity_eq _
  exact bind_eq_ok.mpr ⟨_, record_putEntities hnd he, hread.trans (Entity.decode_encode hrec)⟩

end Store

end TripleStore
