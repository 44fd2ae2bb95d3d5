import TripleStore.Proofs.Database.Insert
import TripleStore.Proofs.Database.Legible

/-!
# Insertions that fail

An insertion writes to the dictionary, twice to the store and then to the
catalogue, and steps that may fail stand between all of these.  Yet in a database
that insertions lead to only the first one ever fails: the batch of terms is
staged before anything is written, and it cannot be staged if two terms collide.

Every later step succeeds for a reason.  The staged terms can be entered one by
one, as they are free and have different checksums.  The keys of their statements
are found, as the terms are known.  The walks for the shortcuts find an entity
for every node, as the statements have been stored.  And what the graph held can
be read back, as the tables are legible.  So an insertion that fails has written
nothing.
-/

namespace TripleStore

namespace Database

variable {db db' : Database} {graph : String} {now : UInt64} {d : Dataset}
  {clock : List UInt64}

/-- An insertion that fails leaves the database as it was.  It fails before anything is
written, because two terms collide. -/
theorem insert_fails (hr : Reached clock db) (hfit : db.Fits graph d) {f : Fault}
    (h : db.insert now graph d = (.error f, db')) :
    db' = db ∧
      (∃ held, db.currentTriples graph = .ok held ∧
        Dictionary.stage db.tables.dictionary ∅
          ((Inference.close (held ++ d.triples)).flatMap Triple.terms) = .error f) ∧
      ∃ known incoming, f = .collision known incoming ∧ Dictionary.Collide known incoming := by
  have hd := hr.coherent.sound
  obtain ⟨hsame, hread | ⟨held, hheld, hstage⟩⟩ := insert_error hd hfit h
  · obtain ⟨held, hheld⟩ := hr.exists_currentTriples graph
    rw [hheld] at hread
    cases hread
  · exact ⟨hsame, ⟨held, hheld, hstage⟩, Dictionary.stage_eq_error hd (by simp) hstage⟩

/-- A statement about two terms that collide. -/
def clashing : Dataset := .ofTriples [⟨⟨"", "plumless"⟩, ⟨"", "p"⟩, ⟨"", "buckeroo"⟩⟩]

theorem insert_fails_clashing :
    (chained.insert 2 "g" clashing).1 =
        .error (.collision ⟨"", "plumless"⟩ ⟨"", "buckeroo"⟩) ∧
      (chained.insert 2 "g" clashing).2 = chained := by
  have hfail : (chained.insert 2 "g" clashing).1 =
      .error (.collision ⟨"", "plumless"⟩ ⟨"", "buckeroo"⟩) := by decide +kernel
  have hfits : chained.Fits "g" clashing := by decide +kernel
  exact ⟨hfail, (insert_fails reached_chained hfits (Prod.ext hfail rfl)).1⟩

end Database

end TripleStore
