import Mathlib.Data.List.Nodup
import TripleStore.Proofs.Adjacency

/-!
# Adding shortcuts

Each walk links an entity to all that its statements of a predicate lead to.  A
link is a statement too, so the links of all walks are a list of statements, and
`addAllShortcuts_eq` says that they are the closure of those the walks read.

The walks read the statements that are stored, while the adjacency is being
extended.  So it does not matter in which order they are made.
-/

open Relation

namespace TripleStore

/-! ## Links -/

/-- An entity with shortcuts at both ends of some statements. -/
def Entity.link (links : List Statement) (e : Entity) : Entity :=
  { e with
    outgoing := e.outgoing ++ (links.filter fun st => st.subject = e.key).map fun st =>
      ⟨st.predicate, st.object, .onePlus⟩
    incoming := e.incoming ++ (links.filter fun st => st.object = e.key).map fun st =>
      ⟨st.predicate, st.subject, .onePlus⟩ }

theorem Entity.mem_edges_link {links : List Statement} {e : Entity} {d : Direction} {x : Edge} :
    x ∈ d.edges (e.link links) ↔
      x ∈ d.edges e ∨ x.quantifier = .onePlus ∧ d.Hops links x.predicate e.key x.value := by
  obtain ⟨p, t, q⟩ := x
  cases d with
  | forward =>
    simp only [Direction.edges, Entity.link, List.mem_append, List.mem_map, List.mem_filter,
      decide_eq_true_eq, Edge.mk.injEq, Direction.Hops, Hop]
    refine or_congr_right ?_
    constructor
    · rintro ⟨st, ⟨hst, hkey⟩, rfl, rfl, rfl⟩
      exact ⟨rfl, hkey ▸ hst⟩
    · rintro ⟨rfl, hst⟩
      exact ⟨_, ⟨hst, rfl⟩, rfl, rfl, rfl⟩
  | backward =>
    simp only [Direction.edges, Entity.link, List.mem_append, List.mem_map, List.mem_filter,
      decide_eq_true_eq, Edge.mk.injEq, Direction.Hops, Hop]
    refine or_congr_right ?_
    constructor
    · rintro ⟨st, ⟨hst, hkey⟩, rfl, rfl, rfl⟩
      exact ⟨rfl, hkey ▸ hst⟩
    · rintro ⟨rfl, hst⟩
      exact ⟨_, ⟨hst, rfl⟩, rfl, rfl, rfl⟩

theorem Entity.link_link {links more : List Statement} {e : Entity} :
    (e.link links).link more = e.link (links ++ more) := by
  simp only [Entity.link, List.append_assoc, List.filter_append, List.map_append]
  rfl

theorem Entity.link_nil {e : Entity} : e.link [] = e := by
  simp [Entity.link]

namespace Adjacency

variable {a : Adjacency} {ss links : List Statement} {k l : Key} {node : Key → Prop}

/-- An adjacency with shortcuts at both ends of some statements. -/
def link (a : Adjacency) (links : List Statement) : Adjacency :=
  ⟨a.entities.map fun _ e => e.link links⟩

theorem getElem?_link : (a.link links).entities[k]? = a.entities[k]?.map (Entity.link links) := by
  simp [link]

theorem ext_getElem? {b : Adjacency} (h : ∀ k : Key, a.entities[k]? = b.entities[k]?) : a = b :=
  Adjacency.ext (Std.ExtTreeMap.ext_getElem? fun {k} => h k)

theorem link_nil : a.link [] = a := by
  refine ext_getElem? fun k => ?_
  rw [getElem?_link]
  cases a.entities[k]? with
  | none => rfl
  | some e => rw [Option.map_some, Entity.link_nil]

theorem link_link {more : List Statement} : (a.link links).link more = a.link (links ++ more) := by
  refine ext_getElem? fun k => ?_
  rw [getElem?_link, getElem?_link, getElem?_link, Option.map_map]
  cases a.entities[k]? with
  | none => rfl
  | some e => exact congrArg some Entity.link_link

theorem Covers.link (h : a.Covers node) : (a.link links).Covers node := by
  constructor
  · intro k
    simp [Adjacency.link, h.node]
  · intro k e he
    rw [getElem?_link] at he
    obtain ⟨e', he', rfl⟩ := Option.map_eq_some_iff.mp he
    exact h.key k e' he'

/-! ## Adding the links of walks -/

theorem getElem?_modify {f : Entity → Entity} : (a.modify k f).entities[l]? =
    if k = l then a.entities[l]?.map f else a.entities[l]? := by
  simp only [modify, Std.ExtTreeMap.getElem?_modify, Std.LawfulEqOrd.compare_eq_iff_eq]
  by_cases h : k = l
  · cases h
    simp
  · simp [h]

/-- Adding a shortcut at its source and then at its target links them. -/
theorem modify_modify (h : a.Covers node) {s p t : Key} :
    (a.modify s fun e => e.addOutgoing p t .onePlus).modify t
      (fun e => e.addIncoming p s .onePlus) = a.link [⟨s, p, t⟩] := by
  refine ext_getElem? fun k => ?_
  rw [getElem?_link, getElem?_modify, getElem?_modify]
  cases he : a.entities[k]? with
  | none => simp
  | some e =>
    obtain rfl := h.key k e he
    by_cases hs : s = e.key
    · by_cases ht : t = e.key
      · simp [hs, ht, Entity.link, Entity.addOutgoing, Entity.addIncoming]
      · simp [hs, ht, Entity.link, Entity.addOutgoing]
    · by_cases ht : t = e.key
      · simp [hs, ht, Entity.link, Entity.addIncoming]
      · simp [hs, ht, Entity.link]

/-- Shortcuts to entities are links from their source. -/
theorem addShortcuts_eq (h : a.Covers node) {s p : Key} {targets : List Key}
    (ht : ∀ t ∈ targets, node t) (n : Nat) :
    addShortcuts s p targets a n =
      (.ok (n + targets.length), a.link (targets.map (.mk s p))) := by
  induction targets generalizing a n with
  | nil => simp [addShortcuts, link_nil]
  | cons t targets ih =>
    obtain ⟨ht, hts⟩ := List.forall_mem_cons.mp ht
    have hmem : t ∈ (a.modify s fun e => e.addOutgoing p t .onePlus).entities := by
      rw [modify, Std.ExtTreeMap.mem_modify]
      exact (h.node t).mpr ht
    rw [addShortcuts]
    simp only [if_pos hmem]
    rw [modify_modify h, ih h.link hts, link_link]
    simp
    omega

/-- Walks link entities to what the statements of their predicates lead to. -/
theorem addWalks_eq {here : UInt32 × UInt64} {src : Source} (hs : src.Presents here ss)
    (h : a.Covers (IsNode ss)) {ws : List (Key × Key)} (hnd : ws.Nodup)
    (hw : ∀ w ∈ ws, IsNode ss w.1 ∧ w.2.place = here) (n : Nat) :
    ∃ links : List Statement, links.Nodup ∧
      (∀ st, st ∈ links ↔ (st.subject, st.predicate) ∈ ws ∧
        TransGen (Hop ss st.predicate) st.subject st.object) ∧
      (addWalks src ws a n).outcome = .ok (n + links.length) ∧
      (addWalks src ws a n).adjacency = (a.link links).tidy := by
  induction ws generalizing a n with
  | nil => exact ⟨[], .nil, by simp, rfl, by rw [link_nil]; rfl⟩
  | cons w ws ih =>
    obtain ⟨s, p⟩ := w
    obtain ⟨hfresh, hnd⟩ := List.nodup_cons.mp hnd
    obtain ⟨⟨hnode, hplace⟩, hw⟩ := List.forall_mem_cons.mp hw
    have hseg : (Segment.mk p .onePlus).predicate.place = here := hplace
    obtain ⟨r, hr, hfound⟩ := Reading.follow_spec (d := .forward) hs hseg hnode
    have hreached : ∀ t, t ∈ r.reached.toList ↔ TransGen (Hop ss p) s t :=
      fun t => Std.ExtTreeSet.mem_toList.trans (hfound.reached t)
    have htargets : ∀ t ∈ r.reached.toList, IsNode ss t := by
      intro t ht
      obtain ⟨c, -, hop⟩ := TransGen.tail'_iff.mp ((hreached t).mp ht)
      exact hop.object_isNode
    have hlinked : (a.link (r.reached.toList.map (.mk s p))).Covers (IsNode ss) := h.link
    obtain ⟨rest, hrest, hmem, hout, hadj⟩ := ih hlinked hnd hw (n + r.reached.toList.length)
    have hascending : r.reached.toList.Pairwise fun k l => compare k l = .lt :=
      Std.ExtTreeSet.ordered_toList
    have hhere : (r.reached.toList.map (Statement.mk s p)).Nodup := by
      refine List.Nodup.map ?_ (nodup_of_ascending hascending)
      intro t t' heq
      exact (Statement.mk.inj heq).2.2
    obtain ⟨log, hlog⟩ : ∃ log, Reading.follow .forward s ⟨p, .onePlus⟩ src = (.ok r, log) :=
      ⟨_, Prod.ext hr rfl⟩
    rw [addWalks, hlog]
    simp only [addShortcuts_eq h htargets]
    refine ⟨r.reached.toList.map (.mk s p) ++ rest, ?_, fun st => ?_, ?_, ?_⟩
    · refine List.Nodup.append hhere hrest ?_
      intro st hst hst'
      obtain ⟨t, -, rfl⟩ := List.mem_map.mp hst
      exact hfresh ((hmem _).mp hst').1
    · rw [List.mem_append, hmem, List.mem_cons, Prod.mk.injEq, or_and_right]
      refine or_congr_left ?_
      obtain ⟨s', p', t⟩ := st
      constructor
      · intro hst
        obtain ⟨t', ht', heq⟩ := List.mem_map.mp hst
        cases heq
        exact ⟨⟨rfl, rfl⟩, (hreached t).mp ht'⟩
      · rintro ⟨⟨rfl, rfl⟩, hwalk⟩
        exact List.mem_map.mpr ⟨t, (hreached t).mpr hwalk, rfl⟩
    · rw [hout, List.length_append, List.length_map, Nat.add_assoc]
    · rw [hadj, link_link]

/-! ## The walks of an adjacency -/

theorem mem_foldl_addName {ks acc : List Key} (h : k ∈ ks.foldl Entity.addName acc) :
    k ∈ acc ∨ k ∈ ks := by
  induction ks generalizing acc with
  | nil => exact .inl h
  | cons l ks ih =>
    rcases ih h with h | h
    · rw [Entity.addName] at h
      split at h
      · exact .inl h
      · rcases List.mem_append.mp h with h | h
        · exact .inl h
        · exact .inr (List.mem_singleton.mp h ▸ List.mem_cons_self)
    · exact .inr (List.mem_cons_of_mem _ h)

theorem exists_edge_of_mem_predicates {e : Entity} (h : k ∈ e.predicates) :
    ∃ d : Direction, ∃ x ∈ d.edges e, x.predicate = k := by
  rcases mem_foldl_addName h with h | h
  · cases h
  · obtain ⟨x, hx, rfl⟩ := List.mem_map.mp h
    rcases List.mem_append.mp hx with hx | hx
    · exact ⟨.forward, x, hx, rfl⟩
    · exact ⟨.backward, x, hx, rfl⟩

theorem subset_foldl_addName {ks acc : List Key} : acc ⊆ ks.foldl Entity.addName acc := by
  induction ks generalizing acc with
  | nil => exact List.Subset.refl _
  | cons l ks ih =>
    refine List.Subset.trans ?_ ih
    rw [Entity.addName]
    split
    · exact List.Subset.refl _
    · exact List.subset_append_left _ _

/-- A predicate of the name of each edge is kept. -/
theorem exists_sameName_of_mem {ks acc : List Key} (h : k ∈ ks) :
    ∃ l ∈ ks.foldl Entity.addName acc, l.sameName k = true := by
  induction ks generalizing acc with
  | nil => cases h
  | cons l ks ih =>
    rcases List.mem_cons.mp h with rfl | h
    · have hadd : ∃ l ∈ Entity.addName acc k, l.sameName k = true := by
        rw [Entity.addName]
        split
        · next hany => exact List.any_eq_true.mp hany
        · exact ⟨k, by simp, by simp [Key.sameName]⟩
      have hkept : Entity.addName acc k ⊆ (k :: ks).foldl Entity.addName acc :=
        subset_foldl_addName
      obtain ⟨l, hl, hn⟩ := hadd
      exact ⟨l, hkept hl, hn⟩
    · exact ih h

theorem nodup_foldl_addName {ks acc : List Key} (h : acc.Nodup) :
    (ks.foldl Entity.addName acc).Nodup := by
  induction ks generalizing acc with
  | nil => exact h
  | cons l ks ih =>
    refine ih ?_
    rw [Entity.addName]
    split
    · exact h
    · next hany =>
      refine List.Nodup.append h (List.nodup_singleton l) ?_
      intro m hm hl
      rw [List.mem_singleton] at hl
      exact hany (List.any_eq_true.mpr ⟨m, hm, by simp [hl, Key.sameName]⟩)

theorem nodup_walks : a.walks.Nodup := by
  rw [walks, List.nodup_flatMap]
  constructor
  · intro p _
    refine List.Nodup.map (fun q q' heq => (Prod.mk.inj heq).2) ?_
    exact (nodup_foldl_addName List.nodup_nil).filter _
  · refine Std.ExtTreeMap.distinct_keys_toList.imp ?_
    intro p p' hne w hw hw'
    obtain ⟨q, -, rfl⟩ := List.mem_map.mp hw
    obtain ⟨q', -, heq⟩ := List.mem_map.mp hw'
    refine hne ?_
    rw [(Prod.mk.inj heq).1]
    exact Std.ReflCmp.compare_self

variable {here : UInt32 × UInt64} {src : Source}

/-- Walks start at nodes and follow predicates of the place. -/
theorem Shows.walks (hs : src.Presents here ss)
    (h : a.Shows ss) : ∀ w ∈ a.walks, IsNode ss w.1 ∧ w.2.place = here := by
  intro w hw
  obtain ⟨⟨k, e⟩, hmem, hw⟩ := List.mem_flatMap.mp hw
  obtain ⟨q, hq, rfl⟩ := List.mem_map.mp hw
  have he : a.entities[k]? = some e := Std.ExtTreeMap.mem_toList_iff_getElem?_eq_some.mp hmem
  obtain ⟨d, x, hx, rfl⟩ := exists_edge_of_mem_predicates (List.mem_filter.mp hq).1
  refine ⟨(h.node k).mp ?_, (h.describes k e he).predicate_place hs hx⟩
  exact Std.ExtTreeMap.mem_iff_isSome_getElem?.mpr (he ▸ rfl)

/-- There is a walk for each entity and each predicate of its statements. -/
theorem mem_walks (hs : src.Presents here ss) (h : a.Shows ss) {s p : Key} :
    (s, p) ∈ a.walks ↔ ∃ o, Hop ss p s o := by
  constructor
  · intro hw
    have hplace : p.place = here := (h.walks hs (s, p) hw).2
    obtain ⟨⟨k, e⟩, hmem, hw⟩ := List.mem_flatMap.mp hw
    obtain ⟨q, hq, heq⟩ := List.mem_map.mp hw
    obtain ⟨rfl, rfl⟩ := Prod.mk.inj heq
    have he : a.entities[k]? = some e := Std.ExtTreeMap.mem_toList_iff_getElem?_eq_some.mp hmem
    obtain ⟨o, ho⟩ : ∃ o, o ∈ Entity.statements e.outgoing q := by
      refine List.exists_mem_of_ne_nil _ fun hnil => ?_
      simp [hnil] at hq
    refine ⟨o, ?_⟩
    rw [← h.key k e he]
    exact ((h.describes k e he).mem_statements (d := .forward) hs hplace).mp ho
  · rintro ⟨o, hop⟩
    have hplace := (hs.hops_place (d := .forward) hop).1
    obtain ⟨e, he, rfl⟩ := h.toCovers.exists_entity hop.subject_isNode
    have hd := h.describes _ e he
    have hedge : Edge.mk p o .single ∈ e.outgoing := (hd.plain .forward p o).mpr hop
    have hpred : p ∈ e.predicates := by
      have hmem : p ∈ (e.outgoing ++ e.incoming).map Edge.predicate :=
        List.mem_map.mpr ⟨_, List.mem_append_left _ hedge, rfl⟩
      obtain ⟨q, hq, hn⟩ : ∃ q ∈ e.predicates, q.sameName p = true := exists_sameName_of_mem hmem
      obtain ⟨d, x, hx, rfl⟩ := exists_edge_of_mem_predicates hq
      have hsame := (hd.predicate_place hs hx).trans hplace.symm
      rwa [(Key.sameName_iff hsame).mp hn] at hq
    have hne : Entity.statements e.outgoing p ≠ [] :=
      List.ne_nil_of_mem ((hd.mem_statements (d := .forward) hs hplace).mpr hop)
    refine List.mem_flatMap.mpr
      ⟨(e.key, e), Std.ExtTreeMap.mem_toList_iff_getElem?_eq_some.mpr he, ?_⟩
    refine List.mem_map.mpr ⟨p, List.mem_filter.mpr ⟨hpred, ?_⟩, rfl⟩
    simp [hne]

/-! ## The closure of statements -/

/-- Statements of all that other statements lead to, each once. -/
structure Closure (ss links : List Statement) : Prop where
  /-- None is repeated. -/
  nodup : links.Nodup
  /-- They lead where walks lead. -/
  hop_iff : ∀ p s o, Hop links p s o ↔ TransGen (Hop ss p) s o

/-- Adding all shortcuts links the closure of the statements. -/
theorem addAllShortcuts_eq (hs : src.Presents here ss) (h : a.Shows ss) :
    ∃ links, Closure ss links ∧ (addAllShortcuts src a).outcome = .ok links.length ∧
      (addAllShortcuts src a).adjacency = (a.link links).tidy := by
  obtain ⟨links, hnd, hmem, hout, hadj⟩ :=
    addWalks_eq hs h.toCovers nodup_walks (h.walks hs) 0
  refine ⟨links, ⟨hnd, fun p s o => ?_⟩, by rw [addAllShortcuts, hout, Nat.zero_add], hadj⟩
  rw [Hop, hmem, mem_walks hs h]
  refine and_iff_right_of_imp fun hwalk => ?_
  obtain ⟨c, hop, -⟩ := TransGen.head'_iff.mp hwalk
  exact ⟨c, hop⟩

theorem Closure.hops_iff (h : Closure ss links) {d : Direction} {p s o : Key} :
    d.Hops links p s o ↔ TransGen (d.Hops ss p) s o := by
  cases d with
  | forward => exact h.hop_iff p s o
  | backward => exact (h.hop_iff p o s).trans transGen_swap.symm

/-! ## Statements with their closure -/

/-- An entity with links describes its statements. -/
theorem Closure.describes_link (hl : Closure ss links) {e : Entity} (h : e.Describes ss) :
    (e.link links).Describes ss := by
  constructor
  · intro d p t
    rw [Entity.mem_edges_link]
    simp only [reduceCtorEq, false_and, or_false]
    exact h.plain d p t
  · intro d x hx
    rcases Entity.mem_edges_link.mp hx with hx | ⟨-, hop⟩
    · exact h.sound d x hx
    · exact hl.hops_iff.mp hop
  · exact h.ends

theorem Shows.link (h : a.Shows ss) (hl : Closure ss links) : (a.link links).Shows ss := by
  refine ⟨h.toCovers.link, fun k e he => ?_⟩
  rw [getElem?_link] at he
  obtain ⟨e', he', rfl⟩ := Option.map_eq_some_iff.mp he
  exact hl.describes_link (h.describes k e' he')

/-- All shortcuts can be added. -/
theorem addAllShortcuts_spec (hs : src.Presents here ss) (h : a.Shows ss) :
    ∃ m, (addAllShortcuts src a).outcome = .ok m ∧
      (addAllShortcuts src a).adjacency.Final ss := by
  obtain ⟨links, hl, hout, hadj⟩ := addAllShortcuts_eq hs h
  exact ⟨_, hout, _, h.link hl, hadj⟩

end Adjacency

end TripleStore
