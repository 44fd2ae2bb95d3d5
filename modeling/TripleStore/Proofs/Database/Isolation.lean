import TripleStore.Proofs.Database.Insert
import TripleStore.Proofs.Database.Legible

/-!
# What an insertion does to other graphs

The records of a version are found by the checksum of the graph's name and by the
version.  An insertion writes records of the version it makes and no others, so
every other version keeps its records, byte for byte, and reads back the same
statements.  What the clock reads plays no part in this.

A version of another graph is in reach only if the two names have the same
checksum and the versions are the same time.  Nothing rules this out: colliding
terms are refused, but the checksums of graph names are never compared.  Such a
version shares all its records with the new one, and reads back the statements
that were stored for it as if they were its own.
-/

namespace TripleStore

namespace Tables

variable {t t' : Tables} {graph g : String} {version v : UInt64} {ts got : List Triple}

/-- Versions with one place read back the same statements. -/
theorem triplesAt_congr (h : (Checksum.ofText g, v) = (Checksum.ofText graph, version)) :
    t.triplesAt g v = t.triplesAt graph version := by
  rw [triplesAt, triplesAt, entities_eq, entities_eq, h]

/-- All that was stored is read back, whatever records of the version there were before. -/
theorem Stores.mem_triplesAt (h : t.Stores graph version ts t')
    (hgot : t'.triplesAt graph version = .ok got) {tr : Triple} (htr : tr ∈ ts) : tr ∈ got := by
  obtain ⟨es, hes, hgot⟩ := bind_eq_ok.mp hgot
  obtain ⟨lists, hlists, hgot⟩ := bind_eq_ok.mp hgot
  cases hgot
  have hnode : IsNode (statementsIn graph version ts) (Key.ofUri graph tr.subject version) :=
    ⟨_, List.mem_map.mpr ⟨tr, htr, rfl⟩, .inl rfl⟩
  obtain ⟨e, he, hkey, hd⟩ := h.presents.present _ hnode
  obtain ⟨r, hr, hre⟩ := bind_eq_ok.mp he
  rw [entities_eq] at hes
  have hmem : e ∈ es :=
    (mem_of_mapM hes).mpr ⟨(_, r), mem_recordsAt.mpr ⟨hr, place_of_isNode hnode⟩, hre⟩
  obtain ⟨trs, htrs, hread⟩ := exists_of_mapM hlists hmem
  obtain ⟨trs', htrs', hiff⟩ := triplesOf_spec h.knows hd (hkey ▸ hnode)
  cases hread.symm.trans htrs'
  exact List.mem_flatten.mpr ⟨trs, htrs, (hiff tr).mpr ⟨htr, hkey.symm⟩⟩

end Tables

namespace Database

variable {db db' : Database} {graph : String} {now v : UInt64} {d : Dataset}
  {clock : List UInt64}

/-- An insertion leaves the records and the statements of a version alone, unless the version
has the checksum and the time of the one that is made.  Then it gets all statements of it. -/
theorem insert_isolated (hr : Reached clock db) (hfit : db.Fits graph d)
    (h : db.insert now graph d = (.ok v, db')) (g : String) (w : UInt64) :
    ((Checksum.ofText g, w) ≠ (Checksum.ofText graph, v) →
      (∀ k : Key, k.place = (Checksum.ofText g, w) →
        db'.tables.store.read k = db.tables.store.read k) ∧
      ∃ got, db.tables.triplesAt g w = .ok got ∧ db'.tables.triplesAt g w = .ok got) ∧
    ((Checksum.ofText g, w) = (Checksum.ofText graph, v) →
      ∃ held got, db.currentTriples graph = .ok held ∧ db'.tables.triplesAt g w = .ok got ∧
        ∀ tr ∈ Inference.close (held ++ d.triples), tr ∈ got) := by
  obtain ⟨-, held, hheld, hmakes⟩ := insert_ok hr.coherent.sound hfit h
  constructor
  · intro hapart
    have hsame : ∀ k : Key, k.place = (Checksum.ofText g, w) →
        db'.tables.store.record k = db.tables.store.record k :=
      fun k hk => hmakes.stores.record (hk ▸ hapart)
    obtain ⟨got, hgot⟩ := hr.legible.exists_triplesAt g w
    refine ⟨fun k hk => ?_, got, hgot, ?_⟩
    · rw [Store.read, Store.read, hsame k hk]
    · rw [hr.legible.triplesAt_eq hmakes.stores.keeps hsame, hgot]
  · intro hshared
    obtain ⟨got, hgot⟩ := (hmakes.stores.legible hr.legible).exists_triplesAt g w
    refine ⟨held, got, hheld, hgot, fun tr htr => ?_⟩
    exact hmakes.stores.mem_triplesAt ((Tables.triplesAt_congr hshared).symm.trans hgot) htr

/-- The clock stands still, but the graphs have different checksums. -/
theorem insert_isolated_still :
    (chained.insert 1 "h" closing).1 = .ok 1 ∧
      ∃ got, chained.tables.triplesAt "g" 1 = .ok got ∧
        (chained.insert 1 "h" closing).2.tables.triplesAt "g" 1 = .ok got := by
  have hok : (chained.insert 1 "h" closing).1 = .ok 1 := eq_ok_of_toOption (by decide +kernel)
  have hfits : chained.Fits "h" closing := by decide +kernel
  have hapart : (Checksum.ofText "g", (1 : UInt64)) ≠ (Checksum.ofText "h", 1) := by
    decide +kernel
  exact ⟨hok, ((insert_isolated reached_chained hfits (Prod.ext hok rfl) "g" 1).1 hapart).2⟩

/-- A graph whose name has the checksum of another name. -/
def plumless : Database :=
  (Database.empty.insert 1 "plumless" (.ofTriples [⟨⟨"", "x"⟩, ⟨"", "p"⟩, ⟨"", "y"⟩⟩])).2

/-- Graphs with different names are not left alone. -/
theorem not_isolated :
    ¬ ∀ (clock : List UInt64) (db db' : Database) (graph g : String) (now v w : UInt64)
      (d : Dataset), Reached clock db → graph ≠ g → db.Fits graph d →
        db.insert now graph d = (.ok v, db') → w ∈ db.versionsOf g →
          (∀ k : Key, k.place = (Checksum.ofText g, w) →
            db'.tables.store.read k = db.tables.store.read k) ∧
          db'.tables.triplesAt g w = db.tables.triplesAt g w := by
  intro hall
  have hreached : Reached [1] plumless := .insert 1 "plumless" _ .empty (by decide +kernel)
  have hok : (plumless.insert 1 "buckeroo" closing).1 = .ok 1 :=
    eq_ok_of_toOption (by decide +kernel)
  have hfits : plumless.Fits "buckeroo" closing := by decide +kernel
  have hmem : (1 : UInt64) ∈ plumless.versionsOf "plumless" := by decide +kernel
  obtain ⟨db', hdb'⟩ : ∃ db', db' = (plumless.insert 1 "buckeroo" closing).2 := ⟨_, rfl⟩
  have hsame : db'.tables.triplesAt "plumless" 1 = plumless.tables.triplesAt "plumless" 1 :=
    (hall [1] plumless db' "buckeroo" "plumless" 1 1 1 closing hreached (by decide) hfits
      (Prod.ext hok hdb'.symm) hmem).2
  rw [hdb'] at hsame
  have hchanged :
      ((plumless.insert 1 "buckeroo" closing).2.tables.triplesAt "plumless" 1).toOption ≠
        (plumless.tables.triplesAt "plumless" 1).toOption := by decide +kernel
  exact hchanged (congrArg Except.toOption hsame)

end Database

end TripleStore
