import TripleStore.Proofs.Database.Reached
import TripleStore.Proofs.Query.Answer

/-!
# What an insertion makes and what it leaves alone

As long as the clock moves forward, what can be read back from a version that was
inserted is the closure of what the graph held before and of what was inserted.
All records that were there belong to earlier versions and stay as they are, down
to their bytes.
-/

namespace TripleStore

namespace Database

variable {db db' : Database} {graph : String} {now v : UInt64} {d : Dataset}
  {clock : List UInt64}

/-- What holds of a version is read back, and earlier records are left alone. -/
theorem triplesAt_insert (hr : Reached clock db) (hclock : (now :: clock).Pairwise (· > ·))
    (hfit : db.Fits graph d) (h : db.insert now graph d = (.ok v, db')) :
    ∃ held, db.currentTriples graph = .ok held ∧
      (∃ got, db'.tables.triplesAt graph v = .ok got ∧
        ∀ tr, tr ∈ got ↔ tr ∈ Inference.close (held ++ d.triples)) ∧
      ∀ k bytes, db.tables.store.read k = .ok bytes →
        k.version < v ∧ db'.tables.store.read k = .ok bytes := by
  have hc := hr.coherent
  have hlt := hr.lt_of_forward hclock
  obtain ⟨hv, held, hheld, hmakes⟩ := insert_ok hc.sound hfit h
  rw [nextVersion_of_lt (hlt graph)] at hv
  subst hv
  -- records belong to versions of the catalogue, and these are earlier
  have hearlier : ∀ here : UInt32 × UInt64, ¬ here.2 < v → db.tables.store.Lacks here := by
    intro here hhere
    refine hc.lacks here fun g w hw heq => hhere ?_
    subst heq
    exact hlt g w hw
  have hholds : db'.tables.Holds graph v (Inference.close (held ++ d.triples)) :=
    hmakes.stores.holds (hearlier _ (UInt64.lt_irrefl v))
  refine ⟨held, hheld, Tables.triplesAt_spec hholds, fun k bytes hread => ?_⟩
  have hk : k.version < v := by
    by_contra hk
    rw [Store.read, hearlier k.place hk k rfl] at hread
    cases hread
  refine ⟨hk, ?_⟩
  have hplace : k.place ≠ (Checksum.ofText graph, v) := by
    intro heq
    have hversion : k.version = v := congrArg Prod.snd heq
    exact UInt64.lt_irrefl v (hversion ▸ hk)
  rw [Store.read, hmakes.stores.record hplace]
  exact hread

/-- The database with the chain in one graph, inserted at time one. -/
def chained : Database := (Database.empty.insert 1 "g" (.ofTriples Tables.chain)).2

theorem reached_chained : Reached [1] chained :=
  .insert 1 "g" (.ofTriples Tables.chain) .empty (by decide +kernel)

/-- A statement that makes the chain a cycle. -/
def closing : Dataset := .ofTriples [⟨⟨"", "c"⟩, ⟨"", "p"⟩, ⟨"", "a"⟩⟩]

theorem triplesAt_insert_closing :
    (chained.insert 2 "g" closing).1 = .ok 2 ∧
      ∃ held, chained.currentTriples "g" = .ok held ∧
        (∃ got, (chained.insert 2 "g" closing).2.tables.triplesAt "g" 2 = .ok got ∧
          ∀ tr, tr ∈ got ↔ tr ∈ Inference.close (held ++ closing.triples)) ∧
        ∀ k bytes, chained.tables.store.read k = .ok bytes →
          k.version < 2 ∧ (chained.insert 2 "g" closing).2.tables.store.read k = .ok bytes := by
  have hok : (chained.insert 2 "g" closing).1 = .ok 2 := eq_ok_of_toOption (by decide +kernel)
  have hfits : chained.Fits "g" closing := by decide +kernel
  have hclock : [(2 : UInt64), 1].Pairwise (· > ·) := by decide
  exact ⟨hok, triplesAt_insert reached_chained hclock hfits (Prod.ext hok rfl)⟩

end Database

end TripleStore
