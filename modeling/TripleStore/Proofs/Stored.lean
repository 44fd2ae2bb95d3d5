import TripleStore.Proofs.Walk.Places

/-!
# Tables with several versions

Insertions store versions into the same tables one after another.  Storing that
fails leaves them as they were, so tables are told by the versions that could be
stored.

Each version has its place, which is the checksum of the graph's name and the time.
If no two versions share a place then what is stored there is shown for good, and
where nothing is stored nothing is shown.  So every key is in a place whose
statements are shown.
-/

namespace TripleStore.Tables

variable {t : Tables} {taken : List (UInt32 × UInt64)} {here : UInt32 × UInt64}

/-- Tables that versions were stored in, with the places of these, the last one first.  What is
stored fits a memory. -/
inductive Stored : List (UInt32 × UInt64) → Tables → Prop
  /-- Nothing is stored. -/
  | nil : Stored [] default
  /-- One more version is stored. -/
  | cons {taken : List (UInt32 × UInt64)} {t t' : Tables} (graph : String) (version : UInt64)
      (ts : List Triple) : Stored taken t → FitsMemory ts →
      t.addVersion graph version ts = (.ok (), t') →
      Stored ((Checksum.ofText graph, version) :: taken) t'

namespace Stored

/-- What is left if a version could be stored. -/
theorem addVersion {graph : String} {version : UInt64} {ts : List Triple} (h : Stored taken t)
    (hts : FitsMemory ts) (hok : (t.addVersion graph version ts).1.toOption = some ()) :
    Stored ((Checksum.ofText graph, version) :: taken) (t.addVersion graph version ts).2 :=
  h.cons graph version ts hts (Prod.ext (eq_ok_of_toOption hok) rfl)

theorem sound (h : Stored taken t) : t.dictionary.Sound := by
  induction h with
  | nil => exact Dictionary.sound_empty
  | cons graph version ts _ hts hadd ih => exact (addVersion_ok ih hts hadd).sound

/-- There are no records of a place where nothing is stored. -/
theorem lacks (h : Stored taken t) (hhere : here ∉ taken) : t.store.Lacks here := by
  induction h with
  | nil => exact Store.lacks_empty
  | cons graph version ts hstored hts hadd ih =>
    obtain ⟨hne, hrest⟩ := not_or.mp (List.mem_cons.not.mp hhere)
    intro k hk
    rw [(addVersion_ok hstored.sound hts hadd).record (hk ▸ hne)]
    exact ih hrest k hk

/-- The statements of the place of a key are shown, if no two versions share it. -/
theorem places (h : Stored taken t) {k : Key} (honce : taken.count k.place ≤ 1) :
    Source.Places t.store.entity k := by
  induction h with
  | nil => exact Source.places_of_lacks Store.lacks_empty
  | @cons taken t t' graph version ts hstored hts hadd ih =>
    have hstores := addVersion_ok hstored.sound hts hadd
    by_cases hplace : (Checksum.ofText graph, version) = k.place
    · rw [← hplace, List.count_cons_self] at honce
      have hnone : (Checksum.ofText graph, version) ∉ taken :=
        List.count_eq_zero.mp (Nat.le_zero.mp (Nat.le_of_succ_le_succ honce))
      exact ⟨_, hplace ▸ (hstores.holds (hstored.lacks hnone)).shows⟩
    · rw [List.count_cons_of_ne hplace] at honce
      obtain ⟨ss, hss⟩ := ih honce
      refine ⟨ss, hss.congr fun l hl => Store.entity_of_record (hstores.record ?_)⟩
      exact fun heq => hplace (heq.symm.trans hl)

end Stored

end TripleStore.Tables
