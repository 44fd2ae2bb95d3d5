import TripleStore.Proofs.Version
import TripleStore.Proofs.Walk.Confined

/-!
# Databases that insertions lead to

An insertion either changes nothing or stores one version and enters it in the
catalogue.  A database is reached if insertions lead to it, whatever the clock
reads and whether they succeed or not.

What holds of every database that is reached is `Coherent`.  Records belong to
versions of the catalogue, and the records of a version hold keys of that version
only.  The tables hold statements in every version that shares its checksum and
its time with no other one.  Two versions share them if the names of their graphs
have the same checksum and the clock read the same, and also if the time after
the last one is zero.

If the clock always moves forward the versions are its readings.
-/

namespace TripleStore

/-! ## Records that hold keys of their version -/

/-- An entity that describes statements holds nodes of them. -/
theorem Entity.Describes.within {ss : List Statement} {e : Entity} (he : e.Describes ss) :
    e.Within (IsNode ss) := by
  constructor
  · intro d x hx
    obtain ⟨b, -, hop⟩ := Relation.TransGen.tail'_iff.mp (he.sound d x hx)
    exact ⟨hop.predicate_isNode, hop.isNode.2⟩
  · intro x hx
    have hop : Hop ss e.key x.subject x.object := (he.ends x.subject x.object).mp hx
    exact ⟨hop.subject_isNode, hop.object_isNode⟩

/-- The records of each version hold keys of that version. -/
def Store.Closed (s : Store) : Prop :=
  ∀ here : UInt32 × UInt64, Source.Closed (fun k => k.place = here) s.entity

/-- Storing a version keeps this. -/
theorem Tables.Stores.closed {t t' : Tables} {graph : String} {version : UInt64}
    {ts : List Triple} (h : t.Stores graph version ts t') (ht : t.store.Closed) :
    t'.store.Closed := by
  intro here k e hk he
  by_cases hn : IsNode (statementsIn graph version ts) k
  · obtain ⟨e', he', -, hd⟩ := h.presents.present k hn
    cases he.symm.trans he'
    have hplace : (Checksum.ofText graph, version) = here := (place_of_isNode hn).symm.trans hk
    exact hplace ▸ hd.within.mono h.presents.place
  · exact ht here k e hk ((Store.entity_of_record (h.other k hn)).symm.trans he)

namespace Database

variable {db db' : Database} {graph g : String} {now v : UInt64} {d : Dataset}

/-! ## Versions of a graph -/

/-- The versions of a graph, none if it is not known. -/
def versionsOf (db : Database) (graph : String) : List UInt64 :=
  (db.catalogue[graph]?.getD .empty).versions

theorem latest?_eq : db.latest? graph = (db.versionsOf graph).getLast? := by
  rw [latest?, versionsOf]
  cases db.catalogue[graph]? with
  | none => rfl
  | some info => rfl

theorem mem_versionsOf_of_latest? (h : db.latest? graph = some v) : v ∈ db.versionsOf graph :=
  List.mem_of_getLast? (latest?_eq.symm.trans h)

/-! ## What an insertion does -/

/-- The statements that an insertion would store fit a memory. -/
def Fits (db : Database) (graph : String) (d : Dataset) : Prop :=
  ∀ held, db.currentTriples graph = .ok held →
    Tables.FitsMemory (Inference.close (held ++ d.triples))

instance : Decidable (db.Fits graph d) :=
  match h : db.currentTriples graph with
  | .ok held =>
    decidable_of_iff (Tables.FitsMemory (Inference.close (held ++ d.triples)))
      ⟨fun hfit _ heq => Except.ok.inj (h.symm.trans heq) ▸ hfit, fun hfit => hfit held h⟩
  | .error _ => isTrue fun _ heq => nomatch h.symm.trans heq

/-- What becomes of a database when an insertion makes a version. -/
structure Makes (db : Database) (graph : String) (v : UInt64) (d : Dataset) (held : List Triple)
    (db' : Database) : Prop where
  /-- The closure of what the graph held and what was inserted is stored. -/
  stores : db.tables.Stores graph v (Inference.close (held ++ d.triples)) db'.tables
  /-- The version and the prefixes are entered in the catalogue. -/
  catalogue : db'.catalogue = db.catalogue.alter graph fun info =>
    some ((info.getD .empty).addVersion v d.namespaces)

/-- What an insertion that succeeds has done. -/
theorem insert_ok (hd : db.tables.dictionary.Sound) (hfit : db.Fits graph d)
    (h : db.insert now graph d = (.ok v, db')) :
    v = db.nextVersion graph now ∧
      ∃ held, db.currentTriples graph = .ok held ∧ db.Makes graph v d held db' := by
  rw [insert] at h
  cases hheld : db.currentTriples graph with
  | error f =>
    rw [hheld] at h
    cases h
  | ok held =>
    rw [hheld] at h
    simp only at h
    split at h
    · cases h
    · next tables hadd =>
      cases h
      exact ⟨rfl, held, rfl, Tables.addVersion_ok hd (hfit held hheld) hadd, rfl⟩

/-- An insertion that fails changes nothing.  It fails if what the graph holds cannot be read
back or the terms cannot be staged. -/
theorem insert_error (hd : db.tables.dictionary.Sound) (hfit : db.Fits graph d) {f : Fault}
    (h : db.insert now graph d = (.error f, db')) :
    db' = db ∧ (db.currentTriples graph = .error f ∨
      ∃ held, db.currentTriples graph = .ok held ∧ Dictionary.stage db.tables.dictionary ∅
        ((Inference.close (held ++ d.triples)).flatMap Triple.terms) = .error f) := by
  rw [insert] at h
  cases hheld : db.currentTriples graph with
  | error f =>
    rw [hheld] at h
    cases h
    exact ⟨rfl, .inl rfl⟩
  | ok held =>
    rw [hheld] at h
    simp only at h
    split at h
    · next hadd =>
      cases h
      obtain ⟨hstage, rfl⟩ := (Tables.addVersion_eq_error hd (hfit held hheld)).mp hadd
      exact ⟨rfl, .inr ⟨held, rfl, hstage⟩⟩
    · cases h

/-- An insertion changes nothing or makes the next version. -/
theorem insert_cases (now : UInt64) (hd : db.tables.dictionary.Sound) (hfit : db.Fits graph d) :
    (db.insert now graph d).2 = db ∨ ∃ held, db.currentTriples graph = .ok held ∧
      db.Makes graph (db.nextVersion graph now) d held (db.insert now graph d).2 := by
  obtain ⟨outcome, db', hins⟩ : ∃ outcome db', db.insert now graph d = (outcome, db') :=
    ⟨_, _, rfl⟩
  rw [hins]
  cases outcome with
  | error f => exact .inl (insert_error hd hfit hins).1
  | ok v =>
    obtain ⟨rfl, held, hheld, hmakes⟩ := insert_ok hd hfit hins
    exact .inr ⟨held, hheld, hmakes⟩

/-- A graph that a version is entered for has it after those it had. -/
theorem versionsOf_of_alter (h : db'.catalogue = db.catalogue.alter graph fun info =>
    some ((info.getD .empty).addVersion v d.namespaces)) :
    db'.versionsOf g = if graph = g then db.versionsOf g ++ [v] else db.versionsOf g := by
  rw [Database.versionsOf, Database.versionsOf, h, Std.ExtTreeMap.getElem?_alter]
  simp only [Std.LawfulEqOrd.compare_eq_iff_eq]
  by_cases hg : graph = g
  · cases hg
    simp [GraphInfo.addVersion]
  · simp [hg]

/-- A graph gets the version that is made, after those it has. -/
theorem Makes.versionsOf {held : List Triple} (h : db.Makes graph v d held db') :
    db'.versionsOf g = if graph = g then db.versionsOf g ++ [v] else db.versionsOf g :=
  versionsOf_of_alter h.catalogue

theorem Makes.mem_versionsOf {held : List Triple} (h : db.Makes graph v d held db') {w : UInt64} :
    w ∈ db'.versionsOf g ↔ w ∈ db.versionsOf g ∨ graph = g ∧ w = v := by
  rw [h.versionsOf]
  split
  · next hg => simp [hg]
  · next hg => simp [hg]

/-! ## Coherence -/

/-- No other version of the catalogue has the checksum and the time of this one. -/
structure Unshared (db : Database) (graph : String) (v : UInt64) : Prop where
  /-- No other graph whose name has the same checksum has the version. -/
  graphs : ∀ g, Checksum.ofText g = Checksum.ofText graph → v ∈ db.versionsOf g → g = graph
  /-- The graph has it once. -/
  once : (db.versionsOf graph).count v ≤ 1

/-- What holds of databases that insertions lead to. -/
structure Coherent (db : Database) : Prop where
  /-- Keys lead back to terms. -/
  sound : db.tables.dictionary.Sound
  /-- The records of a version hold keys of the version. -/
  closed : db.tables.store.Closed
  /-- There are records of versions of the catalogue only. -/
  lacks : ∀ here, (∀ g, ∀ v ∈ db.versionsOf g, (Checksum.ofText g, v) ≠ here) →
    db.tables.store.Lacks here
  /-- Versions that share nothing hold statements. -/
  holds : ∀ g, ∀ v ∈ db.versionsOf g, db.Unshared g v → ∃ ts, db.tables.Holds g v ts

theorem coherent_empty : Coherent .empty where
  sound := Dictionary.sound_empty
  closed _ _ _ _ he := nomatch he
  lacks _ _ _ _ := rfl
  holds _ _ hv _ := absurd hv List.not_mem_nil

theorem Makes.unshared {held : List Triple} (h : db.Makes graph v d held db') {w : UInt64}
    (hu : db'.Unshared g w) : db.Unshared g w := by
  refine ⟨fun g' hg' hw => hu.graphs g' hg' (h.mem_versionsOf.mpr (.inl hw)), ?_⟩
  have hle : (db.versionsOf g).count w ≤ (db'.versionsOf g).count w := by
    rw [h.versionsOf]
    split
    · exact (List.sublist_append_left _ _).count_le _
    · exact Nat.le_refl _
  exact hle.trans hu.once

/-- A version that shares nothing is new when it is made. -/
theorem Makes.lacks {held : List Triple} (h : db.Makes graph v d held db') (hc : db.Coherent)
    (hu : db'.Unshared graph v) : db.tables.store.Lacks (Checksum.ofText graph, v) := by
  refine hc.lacks _ fun g w hw heq => ?_
  obtain ⟨hg, rfl⟩ := Prod.mk.inj heq
  obtain rfl := hu.graphs g hg (h.mem_versionsOf.mpr (.inl hw))
  have hcount : (db'.versionsOf g).count w = (db.versionsOf g).count w + 1 := by
    rw [h.versionsOf, if_pos rfl, List.count_append, List.count_singleton_self]
  have hpos : 0 < (db.versionsOf g).count w := List.count_pos_iff.mpr hw
  have honce := hu.once
  omega

/-- A version that shares nothing is the one that was made, or it was there and holds what it
did. -/
theorem Makes.holds_cases {held : List Triple} (h : db.Makes graph v d held db')
    (hc : db.Coherent) {g : String} {w : UInt64} (hw : w ∈ db'.versionsOf g)
    (hu : db'.Unshared g w) :
    db'.tables.Holds g w (Inference.close (held ++ d.triples)) ∨
      w ∈ db.versionsOf g ∧ db.Unshared g w ∧
        ∀ ts, db.tables.Holds g w ts → db'.tables.Holds g w ts := by
  by_cases hplace : (Checksum.ofText g, w) = (Checksum.ofText graph, v)
  · obtain ⟨hg, rfl⟩ := Prod.mk.inj hplace
    obtain rfl : graph = g := hu.graphs graph hg.symm (h.mem_versionsOf.mpr (.inr ⟨rfl, rfl⟩))
    exact .inl (h.stores.holds (h.lacks hc hu))
  · have hw : w ∈ db.versionsOf g := by
      rcases h.mem_versionsOf.mp hw with hw | ⟨rfl, rfl⟩
      · exact hw
      · exact absurd rfl hplace
    refine .inr ⟨hw, h.unshared hu, fun ts hts => ?_⟩
    exact hts.mono h.stores.sound h.stores.keeps fun k hk => h.stores.record (hk ▸ hplace)

/-- Making a version keeps a database coherent. -/
theorem Makes.coherent {held : List Triple} (h : db.Makes graph v d held db')
    (hc : db.Coherent) : db'.Coherent where
  sound := h.stores.sound
  closed := h.stores.closed hc.closed
  lacks here hhere := by
    have hne : (Checksum.ofText graph, v) ≠ here :=
      hhere graph v (h.mem_versionsOf.mpr (.inr ⟨rfl, rfl⟩))
    have hold : db.tables.store.Lacks here :=
      hc.lacks here fun g w hw => hhere g w (h.mem_versionsOf.mpr (.inl hw))
    intro k hk
    rw [h.stores.record (hk ▸ hne.symm)]
    exact hold k hk
  holds g w hw hu := by
    rcases h.holds_cases hc hw hu with hnew | ⟨hw, hu, hkeep⟩
    · exact ⟨_, hnew⟩
    · obtain ⟨ts, hts⟩ := hc.holds g w hw hu
      exact ⟨ts, hkeep ts hts⟩

/-! ## Runs of insertions -/

/-- A database that insertions lead to, with the readings of the clock, the last one first.
What is inserted fits a memory. -/
inductive Reached : List UInt64 → Database → Prop
  /-- The database without graphs. -/
  | empty : Reached [] .empty
  /-- An insertion, which may fail. -/
  | insert {clock : List UInt64} {db : Database} (now : UInt64) (graph : String) (d : Dataset) :
    Reached clock db → db.Fits graph d → Reached (now :: clock) (db.insert now graph d).2

variable {clock : List UInt64}

theorem Reached.coherent (h : Reached clock db) : db.Coherent := by
  induction h with
  | empty => exact coherent_empty
  | insert now graph d _ hfit ih =>
    rcases insert_cases now ih.sound hfit with hsame | ⟨held, -, hmakes⟩
    · exact hsame.symm ▸ ih
    · exact hmakes.coherent ih

/-- A clock that moves past the last version is what the next version says. -/
theorem nextVersion_of_lt (h : ∀ w ∈ db.versionsOf graph, w < now) :
    db.nextVersion graph now = now := by
  rw [nextVersion]
  cases hl : db.latest? graph with
  | none => rfl
  | some w =>
    have hlt : w < now := h w (mem_versionsOf_of_latest? hl)
    have hle : w + 1 ≤ now := by
      rw [UInt64.lt_iff_toNat_lt] at hlt
      have hnow := now.toNat_lt
      rw [UInt64.le_iff_toNat_le, UInt64.toNat_add]
      show (w.toNat + 1) % 2 ^ 64 ≤ now.toNat
      rw [Nat.mod_eq_of_lt (by omega)]
      exact hlt
    show (if now ≤ w + 1 then w + 1 else now) = now
    split
    · next hge => exact UInt64.le_antisymm hle hge
    · rfl

/-- If the clock moves forward the versions are its readings. -/
theorem Reached.mem_clock (h : Reached clock db) (hclock : clock.Pairwise (· > ·)) :
    ∀ g, ∀ v ∈ db.versionsOf g, v ∈ clock := by
  induction h with
  | empty => exact fun _ _ hv => absurd hv List.not_mem_nil
  | @insert clock db now graph d hreached hfit ih =>
    obtain ⟨hnow, hclock⟩ := List.pairwise_cons.mp hclock
    intro g v hv
    rcases insert_cases now hreached.coherent.sound hfit with
      hsame | ⟨held, -, hmakes⟩
    · rw [hsame] at hv
      exact List.mem_cons_of_mem _ (ih hclock g v hv)
    · rcases hmakes.mem_versionsOf.mp hv with hv | ⟨-, rfl⟩
      · exact List.mem_cons_of_mem _ (ih hclock g v hv)
      · rw [nextVersion_of_lt fun u hu => hnow u (ih hclock graph u hu)]
        exact List.mem_cons_self

/-- A clock that moves forward gives a version that comes after all others. -/
theorem Reached.lt_of_forward (h : Reached clock db) (hclock : (now :: clock).Pairwise (· > ·)) :
    ∀ g, ∀ w ∈ db.versionsOf g, w < now := by
  obtain ⟨hnow, hclock⟩ := List.pairwise_cons.mp hclock
  intro g w hw
  exact hnow w (h.mem_clock hclock g w hw)

/-- If the clock moves forward an entity that can be read stays as it is. -/
theorem Reached.insert_entity (h : Reached clock db) (hclock : (now :: clock).Pairwise (· > ·))
    (hfit : db.Fits graph d) {k : Key} {e : Entity} (he : db.tables.store.entity k = .ok e) :
    (db.insert now graph d).2.tables.store.entity k = .ok e := by
  have hc := h.coherent
  have hlt := h.lt_of_forward hclock
  rcases insert_cases now hc.sound hfit with hsame | ⟨held, -, hmakes⟩
  · rw [hsame, he]
  · rw [nextVersion_of_lt (hlt graph)] at hmakes
    have hplace : k.place ≠ (Checksum.ofText graph, now) := by
      intro hplace
      -- there were no records of the version that was made
      have hlack : db.tables.store.Lacks (Checksum.ofText graph, now) := by
        refine hc.lacks _ fun g w hw heq => UInt64.lt_irrefl now ?_
        exact (Prod.mk.inj heq).2 ▸ hlt g w hw
      rw [Store.entity_of_notFound (hlack k hplace)] at he
      cases he
    rw [Store.entity_of_record (hmakes.stores.record hplace), he]

/-- If the clock moves forward no version shares anything. -/
theorem Reached.unshared (h : Reached clock db) (hclock : clock.Pairwise (· > ·)) :
    ∀ g, ∀ v ∈ db.versionsOf g, db.Unshared g v := by
  induction h with
  | empty => exact fun _ _ hv => absurd hv List.not_mem_nil
  | @insert clock db now graph d hreached hfit ih =>
    have hlt := hreached.lt_of_forward hclock
    have ih := ih (List.pairwise_cons.mp hclock).2
    intro g v hv
    rcases insert_cases now hreached.coherent.sound hfit with
      hsame | ⟨held, -, hmakes⟩
    · rw [hsame] at hv ⊢
      exact ih g v hv
    · rw [nextVersion_of_lt (hlt graph)] at hmakes
      have hnew : ∀ g, now ∉ db.versionsOf g := fun g hnow => UInt64.lt_irrefl now (hlt g now hnow)
      have hcount : ((db.insert now graph d).2.versionsOf g).count v ≤
          (db.versionsOf g).count v + if graph = g ∧ now = v then 1 else 0 := by
        rw [hmakes.versionsOf]
        by_cases hg : graph = g
        · simp [hg, List.count_singleton]
        · simp [hg]
      by_cases hv' : v ∈ db.versionsOf g
      · -- an earlier version keeps its place to itself
        have hne : now ≠ v := fun heq => hnew g (heq ▸ hv')
        refine ⟨fun g' hg' hmem => ?_, ?_⟩
        · rcases hmakes.mem_versionsOf.mp hmem with hmem | ⟨-, heq⟩
          · exact (ih g v hv').graphs g' hg' hmem
          · exact absurd heq.symm hne
        · rw [if_neg fun h => hne h.2] at hcount
          exact hcount.trans (ih g v hv').once
      · obtain ⟨rfl, rfl⟩ := (hmakes.mem_versionsOf.mp hv).resolve_left hv'
        refine ⟨fun g' _ hmem => ?_, ?_⟩
        · exact ((hmakes.mem_versionsOf.mp hmem).resolve_left (hnew g')).1.symm
        · rwa [List.count_eq_zero_of_not_mem hv', if_pos ⟨rfl, rfl⟩] at hcount

end Database

end TripleStore
