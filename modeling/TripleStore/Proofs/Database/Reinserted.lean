import TripleStore.Proofs.Database.Isolation
import TripleStore.Proofs.Dictionary.Staging
import TripleStore.Proofs.Inference.Stable

/-!
# Insertions that bring nothing new

An insertion closes what the graph held together with what is inserted.  If the
graph held all of that already, it closes a closure once more.  This always
succeeds, as a closure has no terms but those of what it was made of, and these are
known.  Nothing is lost either.

The new version holds what the last one did if and only if that is closed under the
rules it declares.  This is so if no other property was declared to be an inverse of
`owl:inverseOf`.  Otherwise statements that only followed may be rules from now on,
and more may follow by them.

As always, a version that shares its place with another one reads back the
statements of both.
-/

namespace TripleStore

open Inference (Closed InverseApart close)

/-! ## Terms that are known -/

namespace Dictionary

variable {d : Dictionary} {u : Uri} {k : Key}

/-- A term that a key leads back to is known. -/
theorem Sound.knows_of_term (h : d.Sound) (hk : d.term k = .ok u) : d.Knows u := by
  have hu := term_eq_ok.mp hk
  rw [Knows, h.checksum _ u hu]
  exact hu

end Dictionary

namespace Tables

variable {t : Tables} {graph : String} {version : UInt64} {got : List Triple} {tr : Triple}
  {u : Uri}

/-- The terms of what is read back are known. -/
theorem knows_of_triplesAt (hd : t.dictionary.Sound) (h : t.triplesAt graph version = .ok got)
    (htr : tr ∈ got) (hu : u ∈ tr.terms) : t.dictionary.Knows u := by
  obtain ⟨es, -, h⟩ := bind_eq_ok.mp h
  obtain ⟨lists, hlists, h⟩ := bind_eq_ok.mp h
  cases h
  obtain ⟨trs, htrs, htr⟩ := List.mem_flatten.mp htr
  obtain ⟨e, -, he⟩ := (mem_of_mapM hlists).mp htrs
  obtain ⟨s, hs, he⟩ := bind_eq_ok.mp he
  obtain ⟨pair, -, hpair⟩ := (mem_of_mapM he).mp htr
  obtain ⟨p, hp, hpair⟩ := bind_eq_ok.mp hpair
  obtain ⟨o, ho, hpair⟩ := bind_eq_ok.mp hpair
  cases hpair
  simp only [Triple.terms, List.mem_cons, List.not_mem_nil, or_false] at hu
  rcases hu with rfl | rfl | rfl
  · exact hd.knows_of_term hs
  · exact hd.knows_of_term hp
  · exact hd.knows_of_term ho

end Tables

/-! ## Insertions -/

namespace Database

variable {db db' : Database} {graph : String} {now v : UInt64} {d : Dataset}
  {held : List Triple} {clock : List UInt64}

/-- Every version that shares nothing holds a closure. -/
theorem Reached.holds_close (h : Reached clock db) :
    ∀ g, ∀ v ∈ db.versionsOf g, db.Unshared g v →
      ∃ ts, db.tables.Holds g v (close ts) := by
  induction h with
  | empty => exact fun _ _ hv => absurd hv List.not_mem_nil
  | @insert clock db now graph d hreached hfit ih =>
    have hc := hreached.coherent
    rcases insert_cases now hc.sound hfit with hsame | ⟨held, -, hmakes⟩
    · exact hsame.symm ▸ ih
    · intro g w hw hu
      rcases hmakes.holds_cases hc hw hu with hnew | ⟨hw, hu, hkeep⟩
      · exact ⟨_, hnew⟩
      · obtain ⟨ts, hts⟩ := ih g w hw hu
        exact ⟨ts, hkeep _ hts⟩

/-- A graph whose latest version shares nothing holds a closure. -/
theorem Reached.exists_mem_close (hr : Reached clock db)
    (halone : ∀ w, db.latest? graph = some w → db.Unshared graph w)
    (h : db.currentTriples graph = .ok held) : ∃ ts, ∀ tr, tr ∈ held ↔ tr ∈ close ts := by
  rw [currentTriples] at h
  split at h
  · next w hw =>
    obtain ⟨ts, hts⟩ := hr.holds_close graph w (mem_versionsOf_of_latest? hw) (halone w hw)
    obtain ⟨got, hgot, hiff⟩ := Tables.triplesAt_spec hts
    cases h.symm.trans hgot
    exact ⟨ts, hiff⟩
  · cases h
    exact ⟨[], fun tr => iff_of_false List.not_mem_nil List.not_mem_nil⟩

/-- The terms of what a graph holds are known. -/
theorem Reached.knows_of_currentTriples (hr : Reached clock db)
    (h : db.currentTriples graph = .ok held) {tr : Triple} (htr : tr ∈ held) {u : Uri}
    (hu : u ∈ tr.terms) : db.tables.dictionary.Knows u := by
  rw [currentTriples] at h
  split at h
  · exact Tables.knows_of_triplesAt hr.coherent.sound h htr hu
  · cases h
    exact absurd htr List.not_mem_nil

/-- An insertion of what a graph holds already makes a version. -/
theorem Reached.exists_reinsert (now : UInt64) (hr : Reached clock db) (hfit : db.Fits graph d)
    (hheld : db.currentTriples graph = .ok held) (hd : ∀ tr ∈ d.triples, tr ∈ held) :
    ∃ db', db.insert now graph d = (.ok (db.nextVersion graph now), db') ∧
      db.Makes graph (db.nextVersion graph now) d held db' := by
  obtain ⟨outcome, db', hins⟩ : ∃ outcome db', db.insert now graph d = (outcome, db') :=
    ⟨_, _, rfl⟩
  cases outcome with
  | ok v =>
    obtain ⟨rfl, held', hheld', hmakes⟩ := insert_ok hr.coherent.sound hfit hins
    cases hheld.symm.trans hheld'
    exact ⟨db', hins, hmakes⟩
  | error f =>
    obtain ⟨-, hread | ⟨held', hheld', hfail⟩⟩ := insert_error hr.coherent.sound hfit hins
    · cases hread.symm.trans hheld
    · cases hheld.symm.trans hheld'
      -- what follows has the terms of what was held, and these are known
      have hknown : ∀ u ∈ (close (held ++ d.triples)).flatMap Triple.terms,
          db.tables.dictionary.Knows u := by
        intro u hu
        obtain ⟨tr, htr, hu⟩ := List.mem_flatMap.mp hu
        obtain ⟨s, hs, hu⟩ := Inference.exists_of_mem_close htr hu
        have hs : s ∈ held := (List.mem_append.mp hs).elim id (hd s)
        exact hr.knows_of_currentTriples hheld hs hu
      have hfree : ∀ u ∈ (close (held ++ d.triples)).flatMap Triple.terms,
          ∀ w, db.tables.dictionary.terms[Dictionary.checksum u]? = some w → w = u :=
        fun u hu w hw => Option.some.inj (hw.symm.trans (hknown u hu))
      obtain ⟨staged, hstage⟩ : ∃ staged, Dictionary.stage db.tables.dictionary ∅
          ((close (held ++ d.triples)).flatMap Triple.terms) = .ok staged :=
        Dictionary.exists_stage hfree hknown (by simp)
      cases hfail.symm.trans hstage

/-- Closing twice is closing once if the closure is closed under its own rules, and only then.
An insertion of what a graph holds already makes a version that holds the same on the same
condition, if the version shares its place with no other one. -/
theorem reinsert_iff_closed (ts : List Triple) :
    ((close (close ts) = close ts ↔ Closed (close ts) {tr | tr ∈ close ts}) ∧
      (InverseApart ts → close (close ts) = close ts)) ∧
    ∀ (clock : List UInt64) (db : Database) (now : UInt64) (graph : String) (d : Dataset)
      (held : List Triple), Reached clock db → db.Fits graph d →
        db.currentTriples graph = .ok held → (∀ tr ∈ d.triples, tr ∈ held) →
        ∃ db' got, db.insert now graph d = (.ok (db.nextVersion graph now), db') ∧
          db'.tables.triplesAt graph (db.nextVersion graph now) = .ok got ∧
          (∀ tr ∈ held, tr ∈ got) ∧
          (db'.Unshared graph (db.nextVersion graph now) →
            ((∀ tr, tr ∈ got ↔ tr ∈ held) ↔ Closed held {tr | tr ∈ held}) ∧
            ((∀ w, db.latest? graph = some w → db.Unshared graph w) → InverseApart held →
              ∀ tr, tr ∈ got ↔ tr ∈ held)) := by
  refine ⟨⟨Inference.close_close_iff ts, fun hts => ?_⟩, ?_⟩
  · exact (Inference.close_close_iff ts).mpr hts.closed
  intro clock db now graph d held hr hfit hheld hd
  have hsame : ∀ tr, tr ∈ held ++ d.triples ↔ tr ∈ held :=
    fun tr => List.mem_append.trans (or_iff_left_of_imp (hd tr))
  obtain ⟨db', hins, hmakes⟩ := hr.exists_reinsert now hfit hheld hd
  obtain ⟨got, hgot⟩ := (hmakes.stores.legible hr.legible).exists_triplesAt graph
    (db.nextVersion graph now)
  refine ⟨db', got, hins, hgot, fun tr htr => ?_, fun halone => ?_⟩
  · exact hmakes.stores.mem_triplesAt hgot
      (Inference.mem_close_of_mem (List.mem_append_left _ htr))
  · have hholds := hmakes.stores.holds (hmakes.lacks hr.coherent halone)
    obtain ⟨got', hgot', hiff⟩ := Tables.triplesAt_spec hholds
    cases hgot.symm.trans hgot'
    have hmem : ∀ tr, tr ∈ got ↔ tr ∈ close held :=
      fun tr => (hiff tr).trans (Inference.mem_close_congr hsame)
    have hexact : (∀ tr, tr ∈ got ↔ tr ∈ held) ↔ Closed held {tr | tr ∈ held} := by
      rw [← Inference.mem_close_iff]
      exact forall_congr' fun tr => by rw [hmem]
    refine ⟨hexact, fun hlatest hapart => hexact.mpr ?_⟩
    obtain ⟨ts, hts⟩ := hr.exists_mem_close hlatest hheld
    have hgiven : InverseApart ts :=
      fun tr htr => hapart tr ((hts tr).mpr (Inference.mem_close_of_mem htr))
    exact hgiven.closed.congr (fun tr => (hts tr).symm) fun tr => (hts tr).symm

theorem reinsert_chained :
    ∃ held, chained.currentTriples "g" = .ok held ∧
      ∃ db' got, chained.insert 2 "g" (.ofTriples Tables.chain) = (.ok 2, db') ∧
        db'.tables.triplesAt "g" 2 = .ok got ∧ ∀ tr, tr ∈ got ↔ tr ∈ held := by
  have hheld : chained.currentTriples "g" = .ok Tables.chain.reverse :=
    eq_ok_of_toOption (by decide +kernel)
  have hfits : chained.Fits "g" (.ofTriples Tables.chain) := by decide +kernel
  have hnext : chained.nextVersion "g" 2 = 2 := by decide +kernel
  have hapart : InverseApart Tables.chain.reverse := by decide
  obtain ⟨db', got, hins, hgot, -, hexact⟩ := (reinsert_iff_closed []).2 [1] chained 2 "g"
    (.ofTriples Tables.chain) Tables.chain.reverse reached_chained hfits hheld
    fun _ => List.mem_reverse.mpr
  rw [hnext] at hins hgot
  have hreached := Reached.insert 2 "g" (.ofTriples Tables.chain) reached_chained hfits
  have hmem : 2 ∈ (chained.insert 2 "g" (.ofTriples Tables.chain)).2.versionsOf "g" := by
    decide +kernel
  rw [hins] at hreached hmem
  have hnew : db'.Unshared "g" (chained.nextVersion "g" 2) := by
    rw [hnext]
    exact hreached.unshared (by decide) "g" 2 hmem
  have hlatest : ∀ w, chained.latest? "g" = some w → chained.Unshared "g" w := fun w hw =>
    reached_chained.unshared (by decide) "g" w (mem_versionsOf_of_latest? hw)
  exact ⟨_, hheld, db', got, hins, hgot, (hexact hnew).2 hlatest hapart⟩

/-- A graph with one statement, and one whose name has the same checksum and that comes next. -/
def buckeroo : Database :=
  (plumless.insert 0 "buckeroo" (.ofTriples [⟨⟨"", "a"⟩, ⟨"", "q"⟩, ⟨"", "b"⟩⟩])).2

/-- A version that shares its place holds the statements of the other graph, too. -/
theorem reinsert_buckeroo :
    (buckeroo.currentTriples "buckeroo").toOption.map List.length = some 1 ∧
      ((buckeroo.insert 1 "buckeroo" (.ofTriples [])).2.currentTriples
        "buckeroo").toOption.map List.length = some 2 :=
  ⟨by decide +kernel, by decide +kernel⟩

end Database

end TripleStore
