import TripleStore.Proofs.Walk.Links
import TripleStore.Walk.Path

/-!
# Sources that show statements

An entity describes the statements around it if its plain edges and its endpoints
are exactly these statements, and each of its shortcuts stands for a walk over
them.  Nothing is said about which shortcuts there are, so an entity describes
its statements before shortcuts are added as well as after.

A source shows statements if it has an entity for each node and for no other key
of the version.  All that a walk finds follows from this: walks over such a
source are related to the relations of `Links`, and not to the records behind it.
-/

open Relation

namespace TripleStore

/-! ## Places -/

/-- The graph and the version a key belongs to. -/
def Key.place (k : Key) : UInt32 × UInt64 := (k.graph, k.version)

@[simp] theorem Key.place_ofUri (graph : String) (u : Uri) (v : UInt64) :
    (Key.ofUri graph u v).place = (Checksum.ofText graph, v) := rfl

/-- Within one version a key is settled by its term. -/
theorem Key.sameName_iff {k l : Key} (h : k.place = l.place) : k.sameName l = true ↔ k = l := by
  obtain ⟨hg, hv⟩ := Prod.mk.inj h
  constructor
  · intro hn
    exact Key.ext hg (by simpa [Key.sameName] using hn) hv
  · rintro rfl
    simp [Key.sameName]

/-! ## Entities -/

/-- An entity describes the statements around its key. -/
structure Entity.Describes (ss : List Statement) (e : Entity) : Prop where
  /-- The plain edges are the statements. -/
  plain : ∀ (d : Direction) (p t : Key),
    Edge.mk p t .single ∈ d.edges e ↔ d.Hops ss p e.key t
  /-- Every edge stands for a walk over statements. -/
  sound : ∀ (d : Direction) (x : Edge), x ∈ d.edges e →
    TransGen (d.Hops ss x.predicate) e.key x.value
  /-- The endpoints are the statements the key is the predicate of. -/
  ends : ∀ s o : Key, Endpoint.mk s o ∈ e.endpoints ↔ Hop ss e.key s o

/-- A source has an entity for each node of statements, and these are keys of one place. -/
structure Source.Presents (here : UInt32 × UInt64) (ss : List Statement) (src : Source) :
    Prop where
  /-- All nodes are keys of the place. -/
  place : ∀ k, IsNode ss k → k.place = here
  /-- Nodes have entities that describe them. -/
  present : ∀ k, IsNode ss k → ∃ e, src k = .ok e ∧ e.key = k ∧ e.Describes ss

/-- A source has an entity for each node of statements and for no other key of a place. -/
structure Source.Shows (here : UInt32 × UInt64) (ss : List Statement) (src : Source) : Prop
    extends Source.Presents here ss src where
  /-- Other keys of the place have none. -/
  absent : ∀ k, k.place = here → ¬ IsNode ss k → src k = .error (.notFound k)

/-- A key is settled in a source of statements if it is a node or has no entity. -/
def Source.Settles (src : Source) (ss : List Statement) (k : Key) : Prop :=
  IsNode ss k ∨ src k = .error (.notFound k)

/-- Where statements are shown the keys of the place are settled. -/
theorem Source.Shows.settles {here : UInt32 × UInt64} {ss : List Statement} {src : Source}
    (h : src.Shows here ss) {k : Key} (hk : k.place = here) : src.Settles ss k := by
  by_cases hn : IsNode ss k
  · exact .inl hn
  · exact .inr (h.absent k hk hn)

/-- Only what a source reads in the place matters. -/
theorem Source.Presents.congr {here : UInt32 × UInt64} {ss : List Statement} {src src' : Source}
    (h : src.Presents here ss) (hsame : ∀ k, k.place = here → src' k = src k) :
    src'.Presents here ss :=
  ⟨h.place, fun k hk => hsame k (h.place k hk) ▸ h.present k hk⟩

theorem Source.Shows.congr {here : UInt32 × UInt64} {ss : List Statement} {src src' : Source}
    (h : src.Shows here ss) (hsame : ∀ k, k.place = here → src' k = src k) : src'.Shows here ss :=
  ⟨h.toPresents.congr hsame, fun k hk hn => hsame k hk ▸ h.absent k hk hn⟩

theorem Source.Presents.hops_place {here : UInt32 × UInt64} {ss : List Statement}
    {src : Source} (h : src.Presents here ss) {d : Direction} {p a b : Key}
    (hop : d.Hops ss p a b) :
    p.place = here ∧ a.place = here ∧ b.place = here :=
  ⟨h.place p hop.predicate_isNode, h.place a hop.isNode.1, h.place b hop.isNode.2⟩

/-! ## Looking along edges -/

namespace Entity.Describes

variable {here : UInt32 × UInt64} {ss : List Statement} {src : Source} {e : Entity}

/-- The predicate of an edge is a key of the place. -/
theorem predicate_place (hs : src.Presents here ss) (he : e.Describes ss) {d : Direction} {x : Edge}
    (hx : x ∈ d.edges e) : x.predicate.place = here := by
  obtain ⟨c, hop, -⟩ := TransGen.head'_iff.mp (he.sound d x hx)
  exact (hs.hops_place hop).1

/-- The plain edges of a predicate lead where its statements lead. -/
theorem mem_statements (hs : src.Presents here ss) (he : e.Describes ss) {d : Direction} {p t : Key}
    (hp : p.place = here) : t ∈ d.statements p e ↔ d.Hops ss p e.key t := by
  simp only [Direction.statements, Entity.statements, List.mem_map, List.mem_filter,
    Bool.and_eq_true, decide_eq_true_eq]
  constructor
  · rintro ⟨⟨p', t', q⟩, ⟨hx, hq, hn⟩, rfl⟩
    have hplace := he.predicate_place hs hx
    obtain rfl : p' = p := (Key.sameName_iff (hplace.trans hp.symm)).mp hn
    obtain rfl : q = .single := hq
    exact (he.plain d p' t').mp hx
  · intro hop
    exact ⟨⟨p, t, .single⟩, ⟨(he.plain d p t).mpr hop, rfl, (Key.sameName_iff rfl).mpr rfl⟩, rfl⟩

/-- Any edge of a predicate leads to where a walk over its statements leads. -/
theorem transGen_of_mem_hops (hs : src.Presents here ss) (he : e.Describes ss) {d : Direction}
    {p t : Key} (hp : p.place = here) (ht : t ∈ d.hops p e) : TransGen (d.Hops ss p) e.key t := by
  rcases List.mem_append.mp ht with ht | ht
  · simp only [Entity.shortcuts, List.mem_map, List.mem_filter, Bool.and_eq_true] at ht
    obtain ⟨x, ⟨hx, -, hn⟩, rfl⟩ := ht
    have hplace := he.predicate_place hs hx
    obtain rfl : x.predicate = p := (Key.sameName_iff (hplace.trans hp.symm)).mp hn
    exact he.sound d x hx
  · exact .single ((he.mem_statements hs hp).mp ht)

theorem mem_hops_of_hops (hs : src.Presents here ss) (he : e.Describes ss) {d : Direction}
    {p t : Key} (hp : p.place = here) (hop : d.Hops ss p e.key t) : t ∈ d.hops p e :=
  List.mem_append_right _ ((he.mem_statements hs hp).mpr hop)

/-- The pairs of the plain edges are the statements. -/
theorem mem_statementPairs (he : e.Describes ss) {d : Direction} {p t : Key} :
    (p, t) ∈ Entity.statementPairs (d.edges e) ↔ d.Hops ss p e.key t := by
  simp only [Entity.statementPairs, List.mem_map, List.mem_filter, decide_eq_true_eq, Prod.mk.injEq]
  constructor
  · rintro ⟨⟨p', t', q⟩, ⟨hx, hq⟩, rfl, rfl⟩
    obtain rfl : q = .single := hq
    exact (he.plain d p' t').mp hx
  · intro hop
    exact ⟨⟨p, t, .single⟩, ⟨(he.plain d p t).mpr hop, rfl⟩, rfl, rfl⟩

theorem mem_endpointPairs (he : e.Describes ss) {s o : Key} :
    (s, o) ∈ e.endpointPairs ↔ Hop ss e.key s o := by
  rw [← he.ends, endpointPairs, List.mem_map]
  constructor
  · rintro ⟨⟨s', o'⟩, hx, heq⟩
    obtain ⟨rfl, rfl⟩ := Prod.mk.inj heq
    exact mem_sortedUnique.mp hx
  · intro h
    exact ⟨⟨s, o⟩, mem_sortedUnique.mpr h, rfl⟩

end Entity.Describes

/-! ## Reading one entity -/

namespace Reading

variable {here : UInt32 × UInt64} {ss : List Statement} {src : Source}

/-- A node is read, and any other key that is settled is absent. -/
theorem answer_orAbsent_entity (hs : src.Presents here ss) {k : Key} (hk : src.Settles ss k) :
    (IsNode ss k ∧ ∃ e, (entity k).orAbsent.answer src = .ok (some e) ∧ e.key = k ∧ e.Describes ss)
      ∨ (¬ IsNode ss k ∧ (entity k).orAbsent.answer src = .ok none) := by
  by_cases hn : IsNode ss k
  · obtain ⟨e, he, hkey, hd⟩ := hs.present k hn
    exact .inl ⟨hn, e, by rw [answer_orAbsent, answer_entity, he], hkey, hd⟩
  · refine .inr ⟨hn, ?_⟩
    rw [answer_orAbsent, answer_entity, hk.resolve_left hn]
    rfl

end Reading

end TripleStore
