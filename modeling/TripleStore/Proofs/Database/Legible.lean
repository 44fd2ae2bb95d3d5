import TripleStore.Proofs.Database.Reached

/-!
# Records that can be read back

Records hold keys, and whoever reads a version back needs the entity of every
record and a term for every key in it.  Tables in which both are there for all
records are legible.  Storing a version keeps tables legible: the new records are
those of entities, whose keys are nodes, and nodes are keys of known terms.  So
the tables of every database that insertions lead to are legible, also where two
versions share their records, and reading back a version never fails.

What is read back from a version depends on its records and on the terms of the
keys in them.  It stays the same as long as no record of the version changes and
no term is lost.
-/

namespace TripleStore

/-! ## Keys that have terms -/

namespace Dictionary

variable {d d' : Dictionary} {k : Key} {u : Uri}

/-- A dictionary names a key if the key has a term. -/
def Names (d : Dictionary) (k : Key) : Prop := ∃ u, d.term k = .ok u

theorem term_eq_ok : d.term k = .ok u ↔ d.terms[k.name]? = some u := by
  rw [term, term?]
  cases d.terms[k.name]? with
  | none => simp
  | some w => simp

/-- A term that was there is there in a dictionary with more terms. -/
theorem Extends.term (h : d'.Extends d) (hu : d.term k = .ok u) : d'.term k = .ok u :=
  term_eq_ok.mpr (h _ u (term_eq_ok.mp hu))

theorem Extends.names (h : d'.Extends d) (hk : d.Names k) : d'.Names k :=
  hk.imp fun _ => h.term

end Dictionary

/-! ## Legible tables -/

namespace Tables

variable {t t' : Tables} {graph : String} {version : UInt64} {ts : List Triple}

/-- A record can be read: it holds an entity and its keys have terms. -/
def Readable (t : Tables) (r : StoredRecord) : Prop :=
  ∃ e, r.entity = .ok e ∧ t.dictionary.Names e.key ∧ e.Within t.dictionary.Names

/-- All records can be read. -/
def Legible (t : Tables) : Prop := ∀ k r, t.store.record k = .ok r → t.Readable r

theorem legible_empty : Tables.Legible default := fun _ _ h => nomatch h

/-- A record can still be read when more terms are known. -/
theorem Readable.mono {r : StoredRecord} (h : t.Readable r)
    (hext : t'.dictionary.Extends t.dictionary) : t'.Readable r := by
  obtain ⟨e, he, hkey, hwithin⟩ := h
  exact ⟨e, he, hext.names hkey, hwithin.mono fun _ => hext.names⟩

/-- Nodes of what was stored are keys of known terms. -/
theorem Stores.names_of_isNode (h : t.Stores graph version ts t') {k : Key}
    (hk : IsNode (statementsIn graph version ts) k) : t'.dictionary.Names k := by
  obtain ⟨tr, htr, u, hu, rfl⟩ := exists_term_of_isNode hk
  exact ⟨u, (h.knows tr htr u hu).term_ofUri⟩

/-- Storing a version keeps tables legible. -/
theorem Stores.legible (h : t.Stores graph version ts t') (ht : t.Legible) : t'.Legible := by
  intro k r hr
  by_cases hn : IsNode (statementsIn graph version ts) k
  · obtain ⟨e, he, rfl, hd⟩ := h.presents.present k hn
    rw [Store.entity, hr] at he
    exact ⟨e, he, h.names_of_isNode hn, hd.within.mono fun _ => h.names_of_isNode⟩
  · rw [h.other k hn] at hr
    exact (ht k r hr).mono h.keeps

/-! ## Reading back -/

theorem recordsAt_ascending (t : Tables) (here : UInt32 × UInt64) :
    (t.recordsAt here).Pairwise fun p q => compare p.1 q.1 = .lt :=
  Std.ExtTreeMap.ordered_keys_toList.sublist List.filter_sublist

theorem nodup_recordsAt (t : Tables) (here : UInt32 × UInt64) : (t.recordsAt here).Nodup := by
  refine (recordsAt_ascending t here).imp ?_
  intro p q hpq heq
  cases heq
  have hself : compare p.1 p.1 = .eq := Std.ReflCmp.compare_self
  rw [hself] at hpq
  cases hpq

/-- Stores with the same records of a version list them alike. -/
theorem recordsAt_congr {here : UInt32 × UInt64}
    (hsame : ∀ k : Key, k.place = here → t'.store.record k = t.store.record k) :
    t'.recordsAt here = t.recordsAt here := by
  refine List.Perm.eq_of_pairwise ?_ (recordsAt_ascending t' here) (recordsAt_ascending t here) ?_
  · intro p q _ _ hpq hqp
    rw [Std.OrientedCmp.gt_of_lt hpq] at hqp
    cases hqp
  · refine (List.perm_ext_iff_of_nodup (nodup_recordsAt t' here) (nodup_recordsAt t here)).mpr ?_
    intro p
    rw [mem_recordsAt, mem_recordsAt]
    exact and_congr_left fun hp => by rw [hsame p.1 hp]

/-- A statement of an entity whose keys have terms is read back. -/
theorem exists_triplesOf {e : Entity} (hkey : t.dictionary.Names e.key)
    (hwithin : e.Within t.dictionary.Names) : ∃ got, t.triplesOf e = .ok got := by
  obtain ⟨u, hu⟩ := hkey
  have hall : ∀ p ∈ Entity.statementPairs e.outgoing, ∃ tr : Triple, (do
      let predicate ← t.dictionary.term p.1
      let object ← t.dictionary.term p.2
      return ⟨u, predicate, object⟩ : Except Fault Triple) = .ok tr := by
    intro p hp
    obtain ⟨⟨w, hw⟩, x, hx⟩ := Reading.Confined.statementPairs_good hwithin .forward p hp
    exact ⟨⟨u, w, x⟩, by rw [hw, hx]; rfl⟩
  obtain ⟨got, hgot⟩ := exists_mapM hall
  exact ⟨got, bind_eq_ok.mpr ⟨u, hu, hgot⟩⟩

/-- Reading back a version of legible tables never fails. -/
theorem Legible.exists_triplesAt (h : t.Legible) (graph : String) (version : UInt64) :
    ∃ got, t.triplesAt graph version = .ok got := by
  have hread : ∀ p ∈ t.recordsAt (Checksum.ofText graph, version), t.Readable p.2 :=
    fun p hp => h p.1 p.2 (mem_recordsAt.mp hp).1
  obtain ⟨es, hes⟩ := exists_mapM fun p hp => (hread p hp).imp fun _ => And.left
  obtain ⟨lists, hlists⟩ : ∃ lists, es.mapM t.triplesOf = .ok lists := by
    refine exists_mapM fun e he => ?_
    obtain ⟨p, hp, hpe⟩ := (mem_of_mapM hes).mp he
    obtain ⟨e', he', hkey, hwithin⟩ := hread p hp
    cases hpe.symm.trans he'
    exact exists_triplesOf hkey hwithin
  rw [← entities_eq] at hes
  exact ⟨lists.flatten, bind_eq_ok.mpr ⟨es, hes, bind_eq_ok.mpr ⟨lists, hlists, rfl⟩⟩⟩

/-- The statements of an entity stay as they are when more terms are known. -/
theorem triplesOf_mono {e : Entity} {got : List Triple}
    (hext : t'.dictionary.Extends t.dictionary) (h : t.triplesOf e = .ok got) :
    t'.triplesOf e = .ok got := by
  obtain ⟨u, hu, hgot⟩ := bind_eq_ok.mp h
  refine bind_eq_ok.mpr ⟨u, hext.term hu, mapM_eq_ok.mpr ((mapM_eq_ok.mp hgot).imp ?_)⟩
  intro p tr htr
  obtain ⟨w, hw, htr⟩ := bind_eq_ok.mp htr
  obtain ⟨x, hx, htr⟩ := bind_eq_ok.mp htr
  exact bind_eq_ok.mpr ⟨w, hext.term hw, bind_eq_ok.mpr ⟨x, hext.term hx, htr⟩⟩

/-- What is read back from a version depends on its records and on terms that stay. -/
theorem Legible.triplesAt_eq (h : t.Legible) (hext : t'.dictionary.Extends t.dictionary)
    (hsame : ∀ k : Key, k.place = (Checksum.ofText graph, version) →
      t'.store.record k = t.store.record k) :
    t'.triplesAt graph version = t.triplesAt graph version := by
  obtain ⟨got, hgot⟩ := h.exists_triplesAt graph version
  obtain ⟨es, hes, hlists⟩ := bind_eq_ok.mp hgot
  obtain ⟨lists, hlists, hflat⟩ := bind_eq_ok.mp hlists
  rw [hgot]
  refine bind_eq_ok.mpr ⟨es, ?_, bind_eq_ok.mpr ⟨lists, mapM_eq_ok.mpr ?_, hflat⟩⟩
  · rw [entities_eq, recordsAt_congr hsame, ← entities_eq, hes]
  · exact (mapM_eq_ok.mp hlists).imp fun _ _ => triplesOf_mono hext

end Tables

/-! ## Databases that are reached -/

namespace Database

variable {db : Database} {clock : List UInt64}

/-- The tables of a database that is reached are legible. -/
theorem Reached.legible (h : Reached clock db) : db.tables.Legible := by
  induction h with
  | empty => exact Tables.legible_empty
  | insert now graph d hreached hfit ih =>
    rcases insert_cases now hreached.coherent.sound hfit with hsame | ⟨held, -, hmakes⟩
    · exact hsame.symm ▸ ih
    · exact hmakes.stores.legible ih

/-- What a graph holds can be read back. -/
theorem Reached.exists_currentTriples (h : Reached clock db) (graph : String) :
    ∃ held, db.currentTriples graph = .ok held := by
  rw [currentTriples]
  cases db.latest? graph with
  | none => exact ⟨[], rfl⟩
  | some v => exact h.legible.exists_triplesAt graph v

end Database

end TripleStore
