import TripleStore.Proofs.Database.Legible
import TripleStore.Proofs.Walk.Mirrored

/-!
# The pairs of a path

The pairs of a path are found by walking it from some entities only.  These are
the subjects of its first predicate and, as long as the segments so far may be
skipped, of the next one.  Each pair is listed once, and what is listed is what a
walk from its subject finds.

What a walk finds is listed in turn if it took a hop, as the segment that took the
first one is then among those whose subjects are starts.  A walk without hops leads
back to where it began, and only a path all of whose segments may be skipped has
such a walk.  So nothing else is missing from the pairs.

The pairs of a single hop are read off the endpoints of its predicate.  They are the
pairs that walking from every entity would find.
-/

namespace TripleStore

namespace Reading

variable {here : UInt32 × UInt64} {ss : List Statement} {src : Source} {path : List Segment}
  {pairs : List (Key × Key)}

/-! ## No pair twice -/

theorem nodup_toList (ks : Keys) : ks.toList.Nodup :=
  nodup_of_ascending Std.ExtTreeSet.ordered_toList

theorem nodup_endpointPairs (e : Entity) : e.endpointPairs.Nodup := by
  refine (nodup_sortedUnique e.endpoints).map fun x y hxy => ?_
  obtain ⟨hs, ho⟩ := Prod.mk.inj hxy
  exact Endpoint.ext hs ho

theorem nodup_predicatePairs {p : Key} (h : (predicatePairs p).answer src = .ok pairs) :
    pairs.Nodup := by
  rw [predicatePairs, answer_bind] at h
  obtain ⟨o, -, h⟩ := bind_eq_ok.mp h
  cases o with
  | none =>
    obtain rfl := Except.ok.inj h
    exact List.nodup_nil
  | some e =>
    obtain rfl := Except.ok.inj h
    exact nodup_endpointPairs e

/-- Walks from different starts find different pairs. -/
theorem nodup_pairsFrom {ks : List Key} (hks : ks.Nodup)
    (h : (pairsFrom path ks).answer src = .ok pairs) : pairs.Nodup ∧ ∀ p ∈ pairs, p.1 ∈ ks := by
  induction ks generalizing pairs with
  | nil =>
    obtain rfl := Except.ok.inj h
    exact ⟨List.nodup_nil, fun p hp => nomatch hp⟩
  | cons k ks ih =>
    obtain ⟨hk, hks⟩ := List.nodup_cons.mp hks
    rw [pairsFrom, answer_bind] at h
    obtain ⟨os, -, h⟩ := bind_eq_ok.mp h
    rw [answer_bind] at h
    obtain ⟨rest, hrest, h⟩ := bind_eq_ok.mp h
    obtain rfl := Except.ok.inj h
    obtain ⟨hnd, hmem⟩ := ih hks hrest
    constructor
    · refine List.nodup_append'.mpr ⟨?_, hnd, fun p hp hp' => ?_⟩
      · exact (nodup_toList os).map fun a b hab => (Prod.mk.inj hab).2
      · obtain ⟨o, -, rfl⟩ := List.mem_map.mp hp
        exact hk (hmem _ hp')
    · intro p hp
      rcases List.mem_append.mp hp with hp | hp
      · obtain ⟨o, -, rfl⟩ := List.mem_map.mp hp
        exact List.mem_cons_self
      · exact List.mem_cons_of_mem _ (hmem p hp)

/-- No pair of a path is listed twice, whatever the source. -/
theorem nodup_pathPairs (h : (pathPairs path).answer src = .ok pairs) : pairs.Nodup := by
  simp only [pathPairs] at h
  split at h
  · obtain rfl := Except.ok.inj h
    exact List.nodup_nil
  · exact nodup_predicatePairs h
  · rw [answer_bind] at h
    obtain ⟨starts, -, h⟩ := bind_eq_ok.mp h
    exact (nodup_pairsFrom (nodup_toList starts) h).1

/-! ## Complete lists -/

/-- Pairs are all that walks of a path over statements find, each once.  Only what a walk without
hops finds may be missing, and only if the path has no segment that takes a hop. -/
structure Lists (src : Source) (ss : List Statement) (path : List Segment)
    (pairs : List (Key × Key)) : Prop where
  /-- No pair is there twice. -/
  nodup : pairs.Nodup
  /-- Each pair is found by a walk from its subject, which is a node. -/
  sound : ∀ s o, (s, o) ∈ pairs →
    IsNode ss s ∧ ∃ os, (objects s path).answer src = .ok os ∧ o ∈ os
  /-- What a walk finds is there. -/
  complete : ∀ s, src.Settles ss s → ∃ os, (objects s path).answer src = .ok os ∧
    ∀ o ∈ os, (s ≠ o ∨ ∃ seg ∈ path, seg.quantifier = .single ∨ seg.quantifier = .onePlus) →
      (s, o) ∈ pairs

theorem allowsNoHop_eq_false {q : Quantifier} :
    q.allowsNoHop = false ↔ q = .single ∨ q = .onePlus := by
  cases q <;> decide

/-- The pairs of a path over settled predicates are complete. -/
theorem exists_lists_pathPairs (hs : src.Presents here ss)
    (hp : ∀ seg ∈ path, seg.predicate.place = here)
    (hset : ∀ seg ∈ path, src.Settles ss seg.predicate) :
    ∃ pairs, (pathPairs path).answer src = .ok pairs ∧ Lists src ss path pairs := by
  obtain ⟨pairs, hpairs, hspec⟩ := pathPairs_spec hs hp hset
  refine ⟨pairs, hpairs, nodup_pathPairs hpairs, fun s o hso => ?_, fun s hsettled => ?_⟩
  · obtain ⟨hstart, hlinks⟩ := (hspec s o).mp hso
    obtain ⟨os, hos, hobjects⟩ := objects_spec hs hp (.inl hstart.isNode)
    exact ⟨hstart.isNode, os, hos, (hobjects o).mpr hlinks⟩
  · obtain ⟨os, hos, hobjects⟩ := objects_spec hs hp hsettled
    refine ⟨os, hos, fun o ho hhop => ?_⟩
    have hlinks := (hobjects o).mp ho
    refine (hspec s o).mpr ⟨pathStart_of_links hlinks ?_, hlinks⟩
    exact hhop.imp_right fun ⟨seg, hseg, hq⟩ => ⟨seg, hseg, allowsNoHop_eq_false.mpr hq⟩

/-- The pairs of a path that takes a hop are those that walking from all nodes finds. -/
theorem pathPairs_perm_pairsFrom (hs : src.Presents here ss)
    (hp : ∀ seg ∈ path, seg.predicate.place = here)
    (hset : ∀ seg ∈ path, src.Settles ss seg.predicate)
    (hhop : ∃ seg ∈ path, seg.quantifier.allowsNoHop = false) {ks : List Key} (hks : ks.Nodup)
    (hnodes : ∀ k, k ∈ ks ↔ IsNode ss k) :
    ∃ pairs walked, (pathPairs path).answer src = .ok pairs ∧
      (pairsFrom path ks).answer src = .ok walked ∧ pairs.Perm walked := by
  obtain ⟨pairs, hpairs, hspec⟩ := pathPairs_spec hs hp hset
  obtain ⟨walked, hwalked, hwalks⟩ :=
    pairsFrom_spec hs hp fun k hk => .inl ((hnodes k).mp hk)
  refine ⟨pairs, walked, hpairs, hwalked, ?_⟩
  rw [List.perm_ext_iff_of_nodup (nodup_pathPairs hpairs) (nodup_pairsFrom hks hwalked).1]
  rintro ⟨s, o⟩
  rw [hspec, hwalks, hnodes]
  refine and_congr_left fun hlinks => ⟨PathStart.isNode, fun _ => ?_⟩
  exact pathStart_of_links hlinks (.inr hhop)

end Reading

/-! ## Stored versions -/

namespace Tables

variable {t t' : Tables} {graph : String} {version : UInt64} {ts : List Triple}

/-- The entities of a version have the nodes as keys, each once. -/
theorem exists_entities_keys
    (h : Source.Shows (Checksum.ofText graph, version) (statementsIn graph version ts)
      t.store.entity) :
    ∃ es, (Cursor.new graph version ∅).entities t = .ok es ∧ (es.map Entity.key).Nodup ∧
      ∀ k, k ∈ es.map Entity.key ↔ IsNode (statementsIn graph version ts) k := by
  obtain ⟨es, hes, hmem⟩ := entities_spec h
  have hread : ∀ p ∈ t.recordsAt (Checksum.ofText graph, version),
      t.store.entity p.1 = p.2.entity := by
    intro p hp
    rw [Store.entity, (mem_recordsAt.mp hp).1]
    rfl
  have hkey : ∀ k e, IsNode (statementsIn graph version ts) k → t.store.entity k = .ok e →
      e.key = k := by
    intro k e hk he
    obtain ⟨e', he', hkey, -⟩ := h.present k hk
    cases he.symm.trans he'
    exact hkey
  have hrecord : ∀ p ∈ t.recordsAt (Checksum.ofText graph, version), ∀ k,
      p.2.entity.map Entity.key = .ok k → k = p.1 := by
    intro p hp k hk
    obtain ⟨e, he, rfl⟩ := map_eq_ok.mp hk
    have he := (hread p hp).trans he
    refine hkey p.1 e ?_ he
    by_contra hn
    cases he.symm.trans (h.absent p.1 (mem_recordsAt.mp hp).2 hn)
  refine ⟨es, hes, ?_, fun k => ?_⟩
  · have hkeys : (t.recordsAt (Checksum.ofText graph, version)).mapM
        (fun p => p.2.entity.map Entity.key) = .ok (es.map Entity.key) := by
      rw [mapM_eq_map fun _ _ => rfl, entities_eq.symm.trans hes]
      rfl
    refine nodup_of_mapM (nodup_recordsAt t _) (fun p hp q hq k hk hk' => ?_) hkeys
    have hfst : p.1 = q.1 := (hrecord p hp k hk).symm.trans (hrecord q hq k hk')
    have hsnd : (Except.ok p.2 : Except Fault StoredRecord) = .ok q.2 := by
      rw [← (mem_recordsAt.mp hp).1, ← (mem_recordsAt.mp hq).1, hfst]
    exact Prod.ext hfst (Except.ok.inj hsnd)
  · rw [List.mem_map]
    constructor
    · rintro ⟨e, he, rfl⟩
      obtain ⟨k, hk, hread⟩ := (hmem e).mp he
      exact (hkey k e hk hread).symm ▸ hk
    · intro hk
      obtain ⟨e, he, hek, -⟩ := h.present k hk
      exact ⟨e, (hmem e).mpr ⟨k, hk, he⟩, hek⟩

/-- In a version that was compiled and stored, the pairs of a path are complete, also when other
versions are stored later.  If the path is a single hop they are the pairs that walking from every
entity of the version finds.  The predicates are nodes of the version or have no record, as it is
with all keys of a version that had none before. -/
theorem pathPairs_of_compile (hd : t.dictionary.Sound) (hts : FitsMemory ts)
    (hcompile : (Adjacency.compile graph version ts t.dictionary).isOk = true) :
    ∃ t', t.addVersion graph version ts = (.ok (), t') ∧ ∀ later : Tables,
      (∀ k : Key, k.place = (Checksum.ofText graph, version) →
        later.store.record k = t'.store.record k) →
      (∀ (c : Cursor) (path : List Segment), c.Faithful later →
        (∀ seg ∈ path, seg.predicate.place = (Checksum.ofText graph, version) ∧
          Source.Settles later.store.entity (statementsIn graph version ts) seg.predicate) →
        ∃ pairs, (c.run later (Reading.pathPairs path)).1 = .ok pairs ∧
          Reading.Lists (c.source later) (statementsIn graph version ts) path pairs) ∧
      (t.store.Lacks (Checksum.ofText graph, version) →
        (∀ k : Key, k.place = (Checksum.ofText graph, version) →
          Source.Settles later.store.entity (statementsIn graph version ts) k) ∧
        ∃ es, (Cursor.new graph version ∅).entities later = .ok es ∧
          ∀ (c : Cursor) (p : Key), c.Faithful later →
            p.place = (Checksum.ofText graph, version) →
            ∃ pairs walked, (c.run later (Reading.pathPairs [⟨p, .single⟩])).1 = .ok pairs ∧
              (c.run later (Reading.pairsFrom [⟨p, .single⟩] (es.map Entity.key))).1 =
                .ok walked ∧ pairs.Perm walked) := by
  cases hc : Adjacency.compile graph version ts t.dictionary with
  | error f =>
    rw [hc] at hcompile
    cases hcompile
  | ok p =>
    obtain ⟨t', hadd, hstores⟩ := addVersion_of_compile hd hts hc
    refine ⟨t', hadd, fun later hsame => ?_⟩
    have hsame : ∀ k : Key, k.place = (Checksum.ofText graph, version) →
        later.store.entity k = t'.store.entity k :=
      fun k hk => Store.entity_of_record (hsame k hk)
    have hpresents := hstores.presents.congr hsame
    refine ⟨fun c path hfaithful hpath => ?_, fun hlack => ?_⟩
    · simp only [Cursor.run, hfaithful.source]
      exact Reading.exists_lists_pathPairs hpresents (fun seg h => (hpath seg h).1)
        fun seg h => (hpath seg h).2
    · have hshows := (hstores.holds hlack).shows.congr hsame
      have hsettles : ∀ k : Key, k.place = (Checksum.ofText graph, version) →
          Source.Settles later.store.entity (statementsIn graph version ts) k :=
        fun k hk => hshows.settles hk
      obtain ⟨es, hes, hnd, hnodes⟩ := exists_entities_keys hshows
      refine ⟨hsettles, es, hes, fun c p hfaithful hp => ?_⟩
      simp only [Cursor.run, hfaithful.source]
      exact Reading.pathPairs_perm_pairsFrom hpresents
        (fun seg h => List.mem_singleton.mp h ▸ hp)
        (fun seg h => List.mem_singleton.mp h ▸ hsettles p hp)
        ⟨_, List.mem_singleton_self _, rfl⟩ hnd hnodes

theorem pathPairs_of_compile_chain :
    ∃ t', Tables.addVersion default "g" 1 chain = (.ok (), t') ∧
      ∃ pairs, ((Cursor.new "g" 1 ∅).run t' (Reading.pathPairs onwards)).1 = .ok pairs ∧
        pairs.Nodup ∧ (Key.ofUri "g" ⟨"", "a"⟩ 1, Key.ofUri "g" ⟨"", "c"⟩ 1) ∈ pairs := by
  have hfits : FitsMemory chain := by decide
  obtain ⟨t', hadd, hlater⟩ := pathPairs_of_compile (t := default)
    Dictionary.sound_empty hfits
    (by decide +kernel : (Adjacency.compile "g" 1 chain .empty).isOk = true)
  obtain ⟨hpairs, hfresh⟩ := hlater t' fun _ _ => rfl
  obtain rfl : t' = (Tables.addVersion default "g" 1 chain).2 := by rw [hadd]
  obtain ⟨hsettles, -⟩ := hfresh fun _ _ => rfl
  have hplaces : ∀ seg ∈ onwards, seg.predicate.place = (Checksum.ofText "g", 1) := by
    decide +kernel
  obtain ⟨pairs, hrun, hlists⟩ := hpairs (.new "g" 1 ∅) onwards Cursor.faithful_new
    fun seg hseg => ⟨hplaces seg hseg, hsettles _ (hplaces seg hseg)⟩
  obtain ⟨os, hos, hcomplete⟩ := hlists.complete (.ofUri "g" ⟨"", "a"⟩ 1) <| by
    rw [Cursor.faithful_new.source]
    exact hsettles _ rfl
  have hcompute : (((Reading.objects (.ofUri "g" ⟨"", "a"⟩ 1) onwards).answer
      ((Cursor.new "g" 1 ∅).source (Tables.addVersion default "g" 1 chain).2)).toOption.map
        fun os => os.contains (.ofUri "g" ⟨"", "c"⟩ 1)) = some true := by decide +kernel
  rw [hos] at hcompute
  have hc : Key.ofUri "g" ⟨"", "c"⟩ 1 ∈ os :=
    Std.ExtTreeSet.contains_iff_mem.mp (Option.some.inj hcompute)
  refine ⟨_, hadd, pairs, hrun, hlists.nodup, hcomplete _ hc (.inr ?_)⟩
  exact ⟨_, List.mem_cons_self, .inr rfl⟩

end Tables

end TripleStore
