import TripleStore.Database.Insert
import TripleStore.Proofs.Dictionary
import TripleStore.Proofs.Shortcuts.Links

/-!
# Versions

Tables hold statements in a version if their records show the statements and
their dictionary knows the terms.  Both parts are needed to read the statements
back: records hold keys, and the dictionary leads back to terms.

Storing a version fails only if terms collide, and leaves the tables alone then.
Otherwise `Stores` says all that happens to the tables: the nodes get their
entities and the terms become known.  No term is lost and no record of another
version or of a graph whose name has another checksum is touched.  So what tables
hold in a version they hold for good.
-/

namespace TripleStore

variable {graph : String} {version : UInt64} {ts : List Triple}

/-- The statement of a triple in a version of a graph. -/
def Statement.named (graph : String) (version : UInt64) (tr : Triple) : Statement where
  subject := .ofUri graph tr.subject version
  predicate := .ofUri graph tr.predicate version
  object := .ofUri graph tr.object version

/-- The statements of triples in a version of a graph. -/
def statementsIn (graph : String) (version : UInt64) (ts : List Triple) : List Statement :=
  ts.map (.named graph version)

/-- A node is the key of a term. -/
theorem exists_term_of_isNode {k : Key} (h : IsNode (statementsIn graph version ts) k) :
    ∃ tr ∈ ts, ∃ u ∈ tr.terms, k = Key.ofUri graph u version := by
  obtain ⟨st, hst, hk⟩ := h
  obtain ⟨tr, htr, rfl⟩ := List.mem_map.mp hst
  rcases hk with rfl | rfl | rfl
  · exact ⟨tr, htr, tr.subject, by simp [Triple.terms], rfl⟩
  · exact ⟨tr, htr, tr.predicate, by simp [Triple.terms], rfl⟩
  · exact ⟨tr, htr, tr.object, by simp [Triple.terms], rfl⟩

theorem place_of_isNode {k : Key} (h : IsNode (statementsIn graph version ts) k) :
    k.place = (Checksum.ofText graph, version) := by
  obtain ⟨-, -, u, -, rfl⟩ := exists_term_of_isNode h
  exact Key.place_ofUri graph u version

/-! ## Compiling -/

namespace Adjacency

variable {a : Adjacency} {d d' : Dictionary}

theorem ofTriple_eq (h : d.Sound) {tr : Triple} {st : Statement}
    (hst : Statement.ofTriple d graph version tr = .ok st) : st = .named graph version tr := by
  obtain ⟨s, hs, hst⟩ := bind_eq_ok.mp hst
  obtain ⟨p, hp, hst⟩ := bind_eq_ok.mp hst
  obtain ⟨o, ho, hst⟩ := bind_eq_ok.mp hst
  rw [h.keyFor_eq hs, h.keyFor_eq hp, h.keyFor_eq ho] at hst
  exact (Except.ok.inj hst).symm

/-- What is compiled is the adjacency of the statements, and its terms are known. -/
theorem compile_spec (h : d.Sound) (hc : compile graph version ts d = .ok (a, d')) :
    d'.Sound ∧ d'.Extends d ∧ (∀ tr ∈ ts, ∀ u ∈ tr.terms, d'.Knows u) ∧
      a = ofStatements (statementsIn graph version ts) := by
  obtain ⟨d₁, hreg, hc⟩ := bind_eq_ok.mp hc
  obtain ⟨ss, hss, hc⟩ := bind_eq_ok.mp hc
  cases hc
  obtain ⟨hsound, hext, hknows⟩ := h.registerAll hreg
  have heq : ss = statementsIn graph version ts :=
    eq_map_of_mapM (fun _ _ hst => ofTriple_eq hsound hst) hss
  refine ⟨hsound, hext, fun tr htr u hu => ?_, heq ▸ rfl⟩
  exact hknows u (List.mem_flatMap.mpr ⟨tr, htr, hu⟩)

/-- Terms that are known have keys. -/
theorem exists_ofTriple {tr : Triple} (h : ∀ u ∈ tr.terms, d.Knows u) :
    ∃ st, Statement.ofTriple d graph version tr = .ok st := by
  have hkey : ∀ u ∈ tr.terms, ∃ k, d.keyFor graph u version = .ok k :=
    fun u hu => (h u hu).exists_keyFor
  obtain ⟨s, hs⟩ := hkey tr.subject (by simp [Triple.terms])
  obtain ⟨p, hp⟩ := hkey tr.predicate (by simp [Triple.terms])
  obtain ⟨o, ho⟩ := hkey tr.object (by simp [Triple.terms])
  exact ⟨⟨s, p, o⟩, bind_eq_ok.mpr ⟨s, hs, bind_eq_ok.mpr ⟨p, hp, bind_eq_ok.mpr ⟨o, ho, rfl⟩⟩⟩⟩

/-- Compiling fails as the staging of the terms fails. -/
theorem compile_eq_error (h : d.Sound) {f : Fault} : compile graph version ts d = .error f ↔
    Dictionary.stage d ∅ (ts.flatMap Triple.terms) = .error f := by
  rw [compile, bind_eq_error, Dictionary.registerAll_eq_error]
  refine or_iff_left ?_
  rintro ⟨d', hreg, hfail⟩
  obtain ⟨-, -, hknows⟩ := h.registerAll hreg
  have hall : ∀ tr ∈ ts, ∃ st, Statement.ofTriple d' graph version tr = .ok st :=
    fun tr htr => exists_ofTriple fun u hu => hknows u (List.mem_flatMap.mpr ⟨tr, htr, hu⟩)
  obtain ⟨ss, hss⟩ := exists_mapM hall
  rw [hss] at hfail
  cases hfail

/-! ## Storing entities -/

variable {node : Key → Prop} {s : Store}

theorem Covers.mem_toList (h : a.Covers node) {e : Entity} :
    e ∈ a.toList ↔ a.entities[e.key]? = some e := by
  constructor
  · intro he
    obtain ⟨⟨k, e'⟩, hmem, rfl⟩ := List.mem_map.mp he
    have hk := Std.ExtTreeMap.mem_toList_iff_getElem?_eq_some.mp hmem
    rwa [h.key k e' hk]
  · intro he
    exact List.mem_map.mpr ⟨_, Std.ExtTreeMap.mem_toList_iff_getElem?_eq_some.mpr he, rfl⟩

theorem Covers.nodup_keys (h : a.Covers node) : (a.toList.map Entity.key).Nodup := by
  have heq : a.toList.map Entity.key = a.entities.toList.map Prod.fst := by
    rw [toList, List.map_map]
    refine List.map_congr_left fun p hp => ?_
    exact h.key p.1 p.2 (Std.ExtTreeMap.mem_toList_iff_getElem?_eq_some.mp hp)
  rw [heq, Std.ExtTreeMap.map_fst_toList_eq_keys]
  exact Std.ExtTreeMap.nodup_keys

theorem Covers.isNode_of_mem (h : a.Covers node) {e : Entity} (he : e ∈ a.toList) :
    node e.key := by
  refine (h.node e.key).mp (Std.ExtTreeMap.mem_iff_isSome_getElem?.mpr ?_)
  rw [h.mem_toList.mp he]
  rfl

/-- Records of other keys stay. -/
theorem Covers.record_putEntities (h : a.Covers node) {k : Key} (hk : ¬ node k) :
    (s.putEntities a.toList).record k = s.record k := by
  refine Store.record_putEntities_of_ne fun e he heq => hk ?_
  exact heq ▸ h.isNode_of_mem he

/-- An entity is read back. -/
theorem Covers.entity_putEntities (h : a.Covers node) (hfit : ∀ e ∈ a.toList, e.Recordable)
    {k : Key} {e : Entity} (he : a.entities[k]? = some e) :
    (s.putEntities a.toList).entity k = .ok e := by
  obtain rfl := h.key k e he
  have hlist : e ∈ a.toList := h.mem_toList.mpr he
  exact Store.entity_putEntities h.nodup_keys hlist (hfit e hlist)

/-- A node gets the record of its entity. -/
theorem Shows.entity_putEntities {ss : List Statement} (h : a.Shows ss)
    (hfit : ∀ e ∈ a.toList, e.Recordable) {k : Key} (hk : IsNode ss k) :
    ∃ e, (s.putEntities a.toList).entity k = .ok e ∧ e.key = k ∧ e.Describes ss := by
  obtain ⟨e, he, hkey⟩ := h.toCovers.exists_entity hk
  exact ⟨e, h.toCovers.entity_putEntities hfit he, hkey, h.describes k e he⟩

end Adjacency

/-! ## What tables hold -/

namespace Store

/-- There are no records of a version of a graph. -/
def Lacks (s : Store) (here : UInt32 × UInt64) : Prop :=
  ∀ k, k.place = here → s.record k = .error (.notFound k)

theorem lacks_empty {here : UInt32 × UInt64} : Store.empty.Lacks here := fun _ _ => rfl

theorem entity_of_notFound {s : Store} {k : Key} (h : s.record k = .error (.notFound k)) :
    s.entity k = .error (.notFound k) := by
  rw [entity, h]
  rfl

/-- An entity that is not found has no record, as a record may be bad but not missing. -/
theorem record_of_notFound {s : Store} {k : Key} (h : s.entity k = .error (.notFound k)) :
    s.record k = .error (.notFound k) := by
  cases hr : s.record k with
  | error f =>
    rw [entity, hr] at h
    have hf : Except.error f = (Except.error (.notFound k) : Except Fault Entity) := h
    cases hf
    rfl
  | ok r =>
    have hbad : Entity.decode r.bytes = .error (.notFound k) := by
      rw [entity, hr] at h
      exact r.entity_eq.symm.trans h
    rw [Entity.decode] at hbad
    cases hd : Binary.decode Entity.decoder r.bytes with
    | error f =>
      rw [hd] at hbad
      cases hbad
    | ok e =>
      rw [hd] at hbad
      cases hbad

end Store

namespace Tables

variable {t t' : Tables} {outcome : Except Fault Unit}

/-- The tables hold statements in a version of a graph. -/
structure Holds (t : Tables) (graph : String) (version : UInt64) (ts : List Triple) : Prop where
  /-- Keys lead back to terms. -/
  sound : t.dictionary.Sound
  /-- The terms are known. -/
  knows : ∀ tr ∈ ts, ∀ u ∈ tr.terms, t.dictionary.Knows u
  /-- The records show the statements. -/
  shows : Source.Shows (Checksum.ofText graph, version) (statementsIn graph version ts)
    t.store.entity

/-- What happens elsewhere does not change what tables hold. -/
theorem Holds.mono (h : t.Holds graph version ts) (hd : t'.dictionary.Sound)
    (hext : t'.dictionary.Extends t.dictionary)
    (hsame : ∀ k : Key, k.place = (Checksum.ofText graph, version) →
      t'.store.record k = t.store.record k) : t'.Holds graph version ts where
  sound := hd
  knows tr htr u hu := hext.knows (h.knows tr htr u hu)
  shows := h.shows.congr fun k hk => Store.entity_of_record (hsame k hk)

/-- A list of statements that a memory can hold: a statement takes more than four bytes of
an address space of 2 ^ 64. -/
def FitsMemory (ts : List Triple) : Prop := ts.length < 2 ^ 62

instance : Decidable (FitsMemory ts) := inferInstanceAs (Decidable (ts.length < 2 ^ 62))

theorem recordable_of_fitsMemory {a : Adjacency} (hts : FitsMemory ts)
    (h : a.Final (statementsIn graph version ts)) : ∀ e ∈ a.toList, e.Recordable := by
  obtain ⟨b, hb, rfl⟩ := h
  intro e he
  have hmem := hb.toCovers.tidy.mem_toList.mp he
  rw [Adjacency.getElem?_tidy] at hmem
  obtain ⟨e', he', rfl⟩ := Option.map_eq_some_iff.mp hmem
  refine Adjacency.recordable_tidy (hb.describes _ e' he') ?_
  rwa [statementsIn, List.length_map]

theorem source_new {namespaces : Namespaces} :
    (Cursor.new graph version namespaces).source t = t.store.entity := by
  funext k
  simp [Cursor.source, Cursor.new]

/-! ## Storing a version -/

/-- What becomes of tables in which statements are stored as a version of a graph. -/
structure Stores (t : Tables) (graph : String) (version : UInt64) (ts : List Triple)
    (t' : Tables) : Prop where
  /-- Keys still lead back to terms. -/
  sound : t'.dictionary.Sound
  /-- No term is lost. -/
  keeps : t'.dictionary.Extends t.dictionary
  /-- The terms of the statements are known. -/
  knows : ∀ tr ∈ ts, ∀ u ∈ tr.terms, t'.dictionary.Knows u
  /-- The nodes have entities that describe the statements. -/
  presents : Source.Presents (Checksum.ofText graph, version) (statementsIn graph version ts)
    t'.store.entity
  /-- All other records are as they were. -/
  other : ∀ k, ¬ IsNode (statementsIn graph version ts) k → t'.store.record k = t.store.record k

/-- Records of another version, or of a graph whose name has another checksum, stay. -/
theorem Stores.record (h : t.Stores graph version ts t') {k : Key}
    (hk : k.place ≠ (Checksum.ofText graph, version)) : t'.store.record k = t.store.record k :=
  h.other k fun hn => hk (place_of_isNode hn)

/-- The statements are held if there were no records of the version before. -/
theorem Stores.holds (h : t.Stores graph version ts t')
    (hlack : t.store.Lacks (Checksum.ofText graph, version)) : t'.Holds graph version ts where
  sound := h.sound
  knows := h.knows
  shows := by
    refine ⟨h.presents, fun k hk hn => Store.entity_of_notFound ?_⟩
    exact (h.other k hn).trans (hlack k hk)

/-- A version can be stored if its terms do not collide. -/
theorem addVersion_of_compile {a : Adjacency} {d : Dictionary} (hd : t.dictionary.Sound)
    (hts : FitsMemory ts) (hc : Adjacency.compile graph version ts t.dictionary = .ok (a, d)) :
    ∃ t', t.addVersion graph version ts = (.ok (), t') ∧ t.Stores graph version ts t' := by
  obtain ⟨hsound, hkeeps, hknows, ha⟩ := Adjacency.compile_spec hd hc
  have hfinal : a.Final (statementsIn graph version ts) := ha ▸ Adjacency.final_ofStatements _
  have hpresents : ∀ (t : Tables) (b : Adjacency), b.Final (statementsIn graph version ts) →
      Source.Presents (Checksum.ofText graph, version) (statementsIn graph version ts)
        (t.putAdjacency b).store.entity := by
    intro t b hb
    refine ⟨fun k hk => place_of_isNode hk, fun k hk => ?_⟩
    exact hb.shows.entity_putEntities (recordable_of_fitsMemory hts hb) hk
  -- the walks for shortcuts read the statements that are stored first
  obtain ⟨t₁, ht₁⟩ : ∃ t₁, t₁ = putAdjacency { t with dictionary := d } a := ⟨_, rfl⟩
  have hpresents₁ : Source.Presents (Checksum.ofText graph, version)
      (statementsIn graph version ts) t₁.store.entity := ht₁ ▸ hpresents _ a hfinal
  obtain ⟨m, hout, hfinal'⟩ := Adjacency.addAllShortcuts_spec hpresents₁ hfinal.shows
  obtain ⟨b, hb⟩ : ∃ b, b = (a.addAllShortcuts t₁.store.entity).adjacency := ⟨_, rfl⟩
  rw [← hb] at hfinal'
  refine ⟨t₁.putAdjacency b, ?_, ht₁ ▸ hsound, ht₁ ▸ hkeeps, ht₁ ▸ hknows,
    hpresents t₁ b hfinal', fun k hn => ?_⟩
  · rw [addVersion, hc]
    simp only [← ht₁, Cursor.addAllShortcuts, source_new, hout, ← hb]
  · have hsecond : (t₁.putAdjacency b).store.record k = t₁.store.record k :=
      hfinal'.shows.toCovers.record_putEntities hn
    rw [hsecond, ht₁]
    exact hfinal.shows.toCovers.record_putEntities hn

/-- A version of which there were no records can be stored if its terms do not collide, and is
held then. -/
theorem holds_of_compile (hd : t.dictionary.Sound)
    (hlack : t.store.Lacks (Checksum.ofText graph, version)) (hts : FitsMemory ts)
    (hcompile : (Adjacency.compile graph version ts t.dictionary).isOk = true) :
    ∃ t', t.addVersion graph version ts = (.ok (), t') ∧ t'.Holds graph version ts := by
  cases hc : Adjacency.compile graph version ts t.dictionary with
  | error f =>
    rw [hc] at hcompile
    cases hcompile
  | ok compiled =>
    obtain ⟨t', hadd, hstores⟩ := addVersion_of_compile hd hts hc
    exact ⟨t', hadd, hstores.holds hlack⟩

/-- What a version that could be stored has done. -/
theorem addVersion_ok (hd : t.dictionary.Sound) (hts : FitsMemory ts)
    (h : t.addVersion graph version ts = (.ok (), t')) : t.Stores graph version ts t' := by
  cases hc : Adjacency.compile graph version ts t.dictionary with
  | error f =>
    rw [addVersion, hc] at h
    cases h
  | ok p =>
    obtain ⟨a, d⟩ := p
    obtain ⟨t'', h', hstores⟩ := addVersion_of_compile hd hts hc
    rw [h'] at h
    cases h
    exact hstores

/-- A version cannot be stored if its terms cannot be staged, and the tables stay as they
were then. -/
theorem addVersion_eq_error (hd : t.dictionary.Sound) (hts : FitsMemory ts) {f : Fault} :
    t.addVersion graph version ts = (.error f, t') ↔
      Dictionary.stage t.dictionary ∅ (ts.flatMap Triple.terms) = .error f ∧ t' = t := by
  have hstage : Adjacency.compile graph version ts t.dictionary = .error f ↔
      Dictionary.stage t.dictionary ∅ (ts.flatMap Triple.terms) = .error f :=
    Adjacency.compile_eq_error hd
  rw [← hstage]
  cases hc : Adjacency.compile graph version ts t.dictionary with
  | error g =>
    rw [addVersion, hc]
    simp [eq_comm]
  | ok p =>
    obtain ⟨a, d⟩ := p
    obtain ⟨t'', h', -⟩ := addVersion_of_compile hd hts hc
    rw [h']
    simp

/-! ## Reading back -/

/-- The records of one version, by ascending key. -/
def recordsAt (t : Tables) (here : UInt32 × UInt64) : List (Key × StoredRecord) :=
  t.store.records.toList.filter fun p => p.1.place = here

theorem entities_eq : (Cursor.new graph version ∅).entities t =
    (t.recordsAt (Checksum.ofText graph, version)).mapM fun p => p.2.entity := by
  have hfilter : (t.store.scan (Binary.bigEndian 4 (Checksum.ofText graph).toNat)).filter
      (fun p => p.1.version = version) = t.recordsAt (Checksum.ofText graph, version) := by
    rw [Store.scan_eq_filter, List.filter_filter, recordsAt]
    refine List.filter_congr fun p _ => ?_
    rw [Bool.eq_iff_iff, Bool.and_eq_true, Store.startsWith_graph, decide_eq_true_eq,
      decide_eq_true_eq, Key.place, Prod.mk.injEq, and_comm]
  rw [← hfilter]
  rfl

theorem mem_recordsAt {here : UInt32 × UInt64} {p : Key × StoredRecord} :
    p ∈ t.recordsAt here ↔ t.store.record p.1 = .ok p.2 ∧ p.1.place = here := by
  rw [recordsAt, List.mem_filter, ← Prod.mk.eta (p := p), Store.mem_records_iff,
    decide_eq_true_eq]

/-- The entities of a version are those of the nodes. -/
theorem entities_spec
    (h : Source.Shows (Checksum.ofText graph, version) (statementsIn graph version ts)
      t.store.entity) :
    ∃ es, (Cursor.new graph version ∅).entities t = .ok es ∧
      ∀ e, e ∈ es ↔ ∃ k, IsNode (statementsIn graph version ts) k ∧ t.store.entity k = .ok e := by
  have hread : ∀ (k : Key) (r : StoredRecord), t.store.record k = .ok r →
      t.store.entity k = r.entity := by
    intro k r hr
    rw [Store.entity, hr]
    rfl
  have hnode : ∀ p ∈ t.recordsAt (Checksum.ofText graph, version),
      IsNode (statementsIn graph version ts) p.1 := by
    intro p hp
    obtain ⟨hr, hplace⟩ := mem_recordsAt.mp hp
    by_contra hn
    rw [Store.record_of_notFound (h.absent p.1 hplace hn)] at hr
    cases hr
  have hall : ∀ p ∈ t.recordsAt (Checksum.ofText graph, version), ∃ e, p.2.entity = .ok e := by
    intro p hp
    obtain ⟨e, he, -, -⟩ := h.present p.1 (hnode p hp)
    exact ⟨e, (hread p.1 p.2 (mem_recordsAt.mp hp).1).symm.trans he⟩
  obtain ⟨es, hes⟩ := exists_mapM hall
  refine ⟨es, entities_eq.trans hes, fun e => (mem_of_mapM hes).trans ?_⟩
  constructor
  · rintro ⟨p, hp, he⟩
    exact ⟨p.1, hnode p hp, (hread p.1 p.2 (mem_recordsAt.mp hp).1).trans he⟩
  · rintro ⟨k, hk, he⟩
    obtain ⟨r, hr, hre⟩ := bind_eq_ok.mp he
    exact ⟨(k, r), mem_recordsAt.mpr ⟨hr, place_of_isNode hk⟩, hre⟩

/-- The statements of an entity are those with its subject. -/
theorem triplesOf_spec (h : ∀ tr ∈ ts, ∀ u ∈ tr.terms, t.dictionary.Knows u) {e : Entity}
    (he : e.Describes (statementsIn graph version ts))
    (hn : IsNode (statementsIn graph version ts) e.key) :
    ∃ got, t.triplesOf e = .ok got ∧
      ∀ tr, tr ∈ got ↔ tr ∈ ts ∧ Key.ofUri graph tr.subject version = e.key := by
  obtain ⟨tr₀, htr₀, u, hu, hkey⟩ := exists_term_of_isNode hn
  have hu := h tr₀ htr₀ u hu
  have hsubject : t.dictionary.term e.key = .ok u := hkey ▸ hu.term_ofUri
  obtain ⟨read, hreaddef⟩ : ∃ read : Key × Key → Except Fault Triple, read = fun p => do
      let predicate ← t.dictionary.term p.1
      let object ← t.dictionary.term p.2
      return ⟨u, predicate, object⟩ := ⟨_, rfl⟩
  have hread : ∀ tr ∈ ts, Key.ofUri graph tr.subject version = e.key →
      read (Key.ofUri graph tr.predicate version, Key.ofUri graph tr.object version) = .ok tr := by
    intro tr htr hk
    have hs := h tr htr tr.subject (by simp [Triple.terms])
    have hp := h tr htr tr.predicate (by simp [Triple.terms])
    have ho := h tr htr tr.object (by simp [Triple.terms])
    obtain rfl : tr.subject = u := hs.eq_of_ofUri_eq hu (hk.trans hkey)
    subst hreaddef
    simp only [hp.term_ofUri, ho.term_ofUri]
    rfl
  have hpairs : ∀ p, p ∈ Entity.statementPairs e.outgoing ↔
      ∃ tr ∈ ts, Key.ofUri graph tr.subject version = e.key ∧
        (Key.ofUri graph tr.predicate version, Key.ofUri graph tr.object version) = p := by
    intro p
    have hhop : p ∈ Entity.statementPairs e.outgoing ↔
        Statement.mk e.key p.1 p.2 ∈ statementsIn graph version ts :=
      he.mem_statementPairs (d := .forward)
    rw [hhop, statementsIn, List.mem_map]
    refine exists_congr fun tr => and_congr_right fun _ => ?_
    rw [Statement.ext_iff, Prod.ext_iff]
    exact Iff.rfl
  have hall : ∀ p ∈ Entity.statementPairs e.outgoing, ∃ tr, read p = .ok tr := by
    intro p hp
    obtain ⟨tr, htr, hk, rfl⟩ := (hpairs p).mp hp
    exact ⟨tr, hread tr htr hk⟩
  obtain ⟨got, hgot⟩ := exists_mapM hall
  refine ⟨got, ?_, fun tr => (mem_of_mapM hgot).trans ?_⟩
  · rw [triplesOf, hsubject, ← hgot, hreaddef]
    rfl
  · constructor
    · rintro ⟨p, hp, hp'⟩
      obtain ⟨tr', htr', hk, rfl⟩ := (hpairs p).mp hp
      rw [hread tr' htr' hk] at hp'
      cases hp'
      exact ⟨htr', hk⟩
    · rintro ⟨htr, hk⟩
      exact ⟨_, (hpairs _).mpr ⟨tr, htr, hk, rfl⟩, hread tr htr hk⟩

/-- The statements of a version are read back. -/
theorem triplesAt_spec (h : t.Holds graph version ts) :
    ∃ got, t.triplesAt graph version = .ok got ∧ ∀ tr, tr ∈ got ↔ tr ∈ ts := by
  obtain ⟨es, hes, hmem⟩ := entities_spec h.shows
  have hdescribes : ∀ e ∈ es, IsNode (statementsIn graph version ts) e.key ∧
      e.Describes (statementsIn graph version ts) := by
    intro e he
    obtain ⟨k, hk, hread⟩ := (hmem e).mp he
    obtain ⟨e', hread', hkey, hd⟩ := h.shows.present k hk
    cases hread.symm.trans hread'
    exact ⟨hkey ▸ hk, hd⟩
  have hall : ∀ e ∈ es, ∃ trs, t.triplesOf e = .ok trs := by
    intro e he
    obtain ⟨hn, hd⟩ := hdescribes e he
    obtain ⟨trs, htrs, -⟩ := triplesOf_spec h.knows hd hn
    exact ⟨trs, htrs⟩
  obtain ⟨lists, hlists⟩ := exists_mapM hall
  refine ⟨lists.flatten, ?_, fun tr => ?_⟩
  · rw [triplesAt, hes]
    show (es.mapM t.triplesOf >>= fun l => pure l.flatten) = _
    rw [hlists]
    rfl
  · rw [List.mem_flatten]
    constructor
    · rintro ⟨trs, htrs, htr⟩
      obtain ⟨e, he, hread⟩ := (mem_of_mapM hlists).mp htrs
      obtain ⟨hn, hd⟩ := hdescribes e he
      obtain ⟨trs', htrs', hiff⟩ := triplesOf_spec h.knows hd hn
      cases hread.symm.trans htrs'
      exact ((hiff tr).mp htr).1
    · intro htr
      have hst : Statement.named graph version tr ∈ statementsIn graph version ts :=
        List.mem_map.mpr ⟨tr, htr, rfl⟩
      obtain ⟨e, hread, hkey, hd⟩ := h.shows.present (Key.ofUri graph tr.subject version)
        ⟨_, hst, .inl rfl⟩
      have he : e ∈ es := (hmem e).mpr ⟨_, ⟨_, hst, .inl rfl⟩, hread⟩
      obtain ⟨trs, htrs, hiff⟩ := triplesOf_spec h.knows hd (hdescribes e he).1
      exact ⟨trs, (mem_of_mapM hlists).mpr ⟨e, he, htrs⟩, (hiff tr).mpr ⟨htr, hkey.symm⟩⟩

end Tables

end TripleStore
