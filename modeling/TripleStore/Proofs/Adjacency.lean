import TripleStore.Proofs.Store
import TripleStore.Proofs.Walk.Paths

/-!
# What an adjacency shows

The adjacency of statements has an entity for each node, which holds the
statements around it.  Entering one statement more adds one edge at each of its
ends and one endpoint at its predicate, whichever of the three coincide.

An adjacency shows statements if its entities describe them.  It may hold shortcuts
too, each of which stands for a walk, so it still shows its statements after
shortcuts were added.

An entity describes at most four edges for each statement in either direction, as
an edge is settled by the last statement of its walk and by its quantifier.  So the
lists of a tidy entity fit a record as long as the statements fit a memory.
-/

open Relation

namespace TripleStore

/-! ## Ascending lists -/

section Ascending

variable {α : Type} [Ord α] [Std.TransOrd α] {as bs : List α}

theorem nodup_of_ascending (h : as.Pairwise fun a b => compare a b = .lt) : as.Nodup := by
  refine h.imp ?_
  intro a b hab heq
  cases heq
  have hself : compare a a = .eq := Std.ReflCmp.compare_self
  rw [hself] at hab
  cases hab

/-- Ascending lists with the same entries are equal. -/
theorem eq_of_ascending (ha : as.Pairwise fun a b => compare a b = .lt)
    (hb : bs.Pairwise fun a b => compare a b = .lt) (h : ∀ a, a ∈ as ↔ a ∈ bs) : as = bs := by
  refine List.Perm.eq_of_pairwise ?_ ha hb ?_
  · intro a b _ _ hab hba
    rw [Std.OrientedCmp.gt_of_lt hab] at hba
    cases hba
  · exact (List.perm_ext_iff_of_nodup (nodup_of_ascending ha) (nodup_of_ascending hb)).mpr h

theorem nodup_sortedUnique (as : List α) : (sortedUnique as).Nodup :=
  nodup_of_ascending (sortedUnique_ascending as)

end Ascending

namespace Adjacency

variable {a : Adjacency} {ss : List Statement} {st : Statement} {k l : Key} {node : Key → Prop}

/-- The entity of a key, which is new if there is none. -/
def entityAt (a : Adjacency) (k : Key) : Entity := a.entities[k]?.getD (.new k)

/-! ## Entering statements -/

theorem mem_touch {f : Entity → Entity} : l ∈ (a.touch k f).entities ↔ k = l ∨ l ∈ a.entities := by
  simp only [touch, Std.ExtTreeMap.mem_alter, Std.LawfulEqOrd.compare_eq_iff_eq]
  by_cases h : k = l
  · simp [h]
  · simp [h]

theorem entityAt_touch {f : Entity → Entity} :
    (a.touch k f).entityAt l = if k = l then f (a.entityAt l) else a.entityAt l := by
  simp only [entityAt, touch, Std.ExtTreeMap.getElem?_alter, Std.LawfulEqOrd.compare_eq_iff_eq]
  by_cases h : k = l
  · cases h
    simp
  · simp [h]

theorem key_addStatement : ((a.addStatement st).entityAt k).key = (a.entityAt k).key := by
  simp only [addStatement, entityAt_touch]
  split <;> split <;> split <;> rfl

theorem outgoing_addStatement : ((a.addStatement st).entityAt k).outgoing =
    (a.entityAt k).outgoing ++
      if st.subject = k then [⟨st.predicate, st.object, .single⟩] else [] := by
  simp only [addStatement, entityAt_touch]
  split <;> split <;> split <;> simp [Entity.addOutgoing, Entity.addIncoming, Entity.addEndpoint]

theorem incoming_addStatement : ((a.addStatement st).entityAt k).incoming =
    (a.entityAt k).incoming ++
      if st.object = k then [⟨st.predicate, st.subject, .single⟩] else [] := by
  simp only [addStatement, entityAt_touch]
  split <;> split <;> split <;> simp [Entity.addOutgoing, Entity.addIncoming, Entity.addEndpoint]

theorem endpoints_addStatement : ((a.addStatement st).entityAt k).endpoints =
    (a.entityAt k).endpoints ++
      if st.predicate = k then [⟨st.subject, st.object⟩] else [] := by
  simp only [addStatement, entityAt_touch]
  split <;> split <;> split <;> simp [Entity.addOutgoing, Entity.addIncoming, Entity.addEndpoint]

/-! ## The entities of statements -/

/-- The entities hold statements and nothing else. -/
structure States (a : Adjacency) (ss : List Statement) : Prop where
  /-- The nodes have entities. -/
  node : ∀ k, k ∈ a.entities ↔ IsNode ss k
  /-- An entity has the key it is kept under. -/
  key : ∀ k, (a.entityAt k).key = k
  /-- The edges are the statements. -/
  edge : ∀ (d : Direction) (k : Key) (x : Edge),
    x ∈ d.edges (a.entityAt k) ↔ x.quantifier = .single ∧ d.Hops ss x.predicate k x.value
  /-- The endpoints are the statements. -/
  ending : ∀ k s o : Key, Endpoint.mk s o ∈ (a.entityAt k).endpoints ↔ Hop ss k s o

theorem states_empty : empty.States [] where
  node k := by simp [empty, IsNode]
  key k := by simp [empty, entityAt, Entity.new]
  edge d k x := by
    cases d with
    | forward => simp [Direction.edges, Direction.Hops, Hop, empty, entityAt, Entity.new]
    | backward => simp [Direction.edges, Direction.Hops, Hop, empty, entityAt, Entity.new]
  ending k s o := by simp [Hop, empty, entityAt, Entity.new]

theorem isNode_append_singleton : IsNode (ss ++ [st]) k ↔
    IsNode ss k ∨ k = st.subject ∨ k = st.predicate ∨ k = st.object := by
  simp only [IsNode, List.mem_append, List.mem_singleton, or_and_right, exists_or,
    exists_eq_left]

theorem hop_append_singleton {p s o : Key} : Hop (ss ++ [st]) p s o ↔
    Hop ss p s o ∨ s = st.subject ∧ p = st.predicate ∧ o = st.object := by
  simp only [Hop, List.mem_append, List.mem_singleton, Statement.ext_iff]

/-- One statement more is one statement more. -/
theorem States.addStatement (h : a.States ss) : (a.addStatement st).States (ss ++ [st]) where
  node k := by
    simp only [Adjacency.addStatement, mem_touch, h.node, isNode_append_singleton]
    grind
  key k := by rw [key_addStatement, h.key]
  edge d k x := by
    cases d with
    | forward =>
      have hold := h.edge .forward k x
      simp only [Direction.edges, Direction.Hops] at hold ⊢
      rw [outgoing_addStatement, List.mem_append, hold, hop_append_singleton]
      cases x
      split <;> grind
    | backward =>
      have hold := h.edge .backward k x
      simp only [Direction.edges, Direction.Hops] at hold ⊢
      rw [incoming_addStatement, List.mem_append, hold, hop_append_singleton]
      cases x
      split <;> grind
  ending k s o := by
    rw [endpoints_addStatement, List.mem_append, h.ending, hop_append_singleton]
    split <;> grind

theorem States.foldl {more : List Statement} (h : a.States ss) :
    (more.foldl Adjacency.addStatement a).States (ss ++ more) := by
  induction more generalizing a ss with
  | nil => rwa [List.append_nil]
  | cons st more ih =>
    rw [List.append_cons]
    exact ih h.addStatement

/-! ## Showing statements -/

/-- There is an entity for each of some keys and for no other. -/
structure Covers (a : Adjacency) (node : Key → Prop) : Prop where
  /-- The keys have entities. -/
  node : ∀ k, k ∈ a.entities ↔ node k
  /-- An entity has the key it is kept under. -/
  key : ∀ (k : Key) (e : Entity), a.entities[k]? = some e → e.key = k

theorem Covers.exists_entity (h : a.Covers node) (hk : node k) :
    ∃ e, a.entities[k]? = some e ∧ e.key = k := by
  obtain ⟨e, he⟩ := Option.isSome_iff_exists.mp
    (Std.ExtTreeMap.mem_iff_isSome_getElem?.mp ((h.node k).mpr hk))
  exact ⟨e, he, h.key k e he⟩

/-- The nodes of statements have entities, and these describe the statements. -/
structure Shows (a : Adjacency) (ss : List Statement) : Prop extends a.Covers (IsNode ss) where
  /-- Entities describe the statements. -/
  describes : ∀ (k : Key) (e : Entity), a.entities[k]? = some e → e.Describes ss

theorem States.shows (h : a.States ss) : a.Shows ss := by
  have hat : ∀ (k : Key) (e : Entity), a.entities[k]? = some e → e = a.entityAt k := by
    intro k e he
    rw [entityAt, he, Option.getD_some]
  refine ⟨⟨h.node, fun k e he => ?_⟩, fun k e he => ?_⟩
  · rw [hat k e he, h.key]
  · rw [hat k e he]
    constructor
    · intro d p t
      rw [h.edge, h.key]
      exact and_iff_right rfl
    · intro d x hx
      rw [h.key]
      exact .single ((h.edge d k x).mp hx).2
    · intro s o
      rw [h.ending, h.key]

theorem describes_tidy {e : Entity} (h : e.Describes ss) : e.tidy.Describes ss := by
  have hedges : ∀ (d : Direction) (x : Edge), x ∈ d.edges e.tidy ↔ x ∈ d.edges e := by
    intro d x
    cases d with
    | forward => exact mem_sortedUnique
    | backward => exact mem_sortedUnique
  constructor
  · intro d p t
    exact (hedges d _).trans (h.plain d p t)
  · intro d x hx
    exact h.sound d x ((hedges d x).mp hx)
  · intro s o
    exact mem_sortedUnique.trans (h.ends s o)

theorem getElem?_tidy : a.tidy.entities[k]? = a.entities[k]?.map Entity.tidy := by
  simp [tidy]

theorem Covers.tidy (h : a.Covers node) : a.tidy.Covers node := by
  constructor
  · intro k
    simp [Adjacency.tidy, h.node]
  · intro k e he
    rw [getElem?_tidy] at he
    obtain ⟨e', he', rfl⟩ := Option.map_eq_some_iff.mp he
    exact h.key k e' he'

theorem Shows.tidy (h : a.Shows ss) : a.tidy.Shows ss := by
  refine ⟨h.toCovers.tidy, fun k e he => ?_⟩
  rw [getElem?_tidy] at he
  obtain ⟨e', he', rfl⟩ := Option.map_eq_some_iff.mp he
  exact describes_tidy (h.describes k e' he')

/-- An adjacency as it is stored: it shows statements and is tidy. -/
def Final (a : Adjacency) (ss : List Statement) : Prop := ∃ b : Adjacency, b.Shows ss ∧ a = b.tidy

theorem Final.shows (h : a.Final ss) : a.Shows ss := by
  obtain ⟨b, hb, rfl⟩ := h
  exact hb.tidy

/-- The adjacency of statements shows them. -/
theorem final_ofStatements (ss : List Statement) : (ofStatements ss).Final ss := by
  have h : (ss.foldl Adjacency.addStatement empty).States ([] ++ ss) := states_empty.foldl
  exact ⟨_, h.shows, rfl⟩

/-! ## Sizes -/

/-- The edges that can end with a statement. -/
def edgesOf : Direction → Statement → List Edge
  | .forward, st => [.single, .zeroOne, .onePlus, .zeroPlus].map (.mk st.predicate st.object)
  | .backward, st => [.single, .zeroOne, .onePlus, .zeroPlus].map (.mk st.predicate st.subject)

theorem mem_edgesOf {e : Entity} (h : e.Describes ss) {d : Direction} {x : Edge}
    (hx : x ∈ d.edges e) : x ∈ ss.flatMap (edgesOf d) := by
  obtain ⟨c, -, hop⟩ := TransGen.tail'_iff.mp (h.sound d x hx)
  obtain ⟨p, t, q⟩ := x
  cases d with
  | forward =>
    refine List.mem_flatMap.mpr ⟨_, hop, ?_⟩
    cases q <;> simp [edgesOf]
  | backward =>
    refine List.mem_flatMap.mpr ⟨_, hop, ?_⟩
    cases q <;> simp [edgesOf]

theorem length_flatMap_edgesOf {d : Direction} :
    (ss.flatMap (edgesOf d)).length = ss.length * 4 := by
  have hfour : ∀ st, (edgesOf d st).length = 4 := by
    intro st
    cases d <;> rfl
  simp only [List.length_flatMap, hfour, List.map_const', List.sum_replicate_nat]

/-- A tidy entity that describes few statements fits a record. -/
theorem recordable_tidy {e : Entity} (h : e.Describes ss) (hlen : ss.length < 2 ^ 62) :
    e.tidy.Recordable := by
  have hcap : Binary.capacity 8 = 2 ^ 64 := by decide
  have hedges : ∀ d : Direction, (d.edges e.tidy).length < Binary.capacity 8 := by
    intro d
    have hnd : (d.edges e.tidy).Nodup := by
      cases d with
      | forward => exact nodup_sortedUnique _
      | backward => exact nodup_sortedUnique _
    have hsub : d.edges e.tidy ⊆ ss.flatMap (edgesOf d) :=
      fun x hx => mem_edgesOf (describes_tidy h) hx
    have hle := hnd.length_le_of_subset hsub
    rw [length_flatMap_edgesOf] at hle
    omega
  refine ⟨hedges .forward, hedges .backward, ?_⟩
  have hsub : e.tidy.endpoints ⊆ ss.map fun st => ⟨st.subject, st.object⟩ := by
    intro x hx
    exact List.mem_map.mpr ⟨_, ((describes_tidy h).ends x.subject x.object).mp hx, rfl⟩
  have hle := (nodup_sortedUnique e.endpoints).length_le_of_subset hsub
  rw [List.length_map] at hle
  exact lt_of_le_of_lt hle (by omega)

end Adjacency

end TripleStore
