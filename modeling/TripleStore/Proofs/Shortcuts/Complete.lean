import TripleStore.Proofs.Query.Answer
import TripleStore.Proofs.Walk.Shortened

/-!
# Versions with shortcuts

An adjacency to which all shortcuts were added has its statements and endpoints as
before.  Its shortcuts lead exactly where walks over the statements lead, each of
them once.

The records with shortcuts take the place of those without.  Walks over them find
what they found before, from any start, also from one that is not of the version.
-/

open Relation

namespace TripleStore

namespace Adjacency

variable {a : Adjacency} {ss links : List Statement} {k : Key} {node : Key → Prop}
  {here : UInt32 × UInt64} {src : Source}

/-! ## Before and after -/

theorem edges_tidy {e : Entity} {d : Direction} : d.edges e.tidy = sortedUnique (d.edges e) := by
  cases d with
  | forward => rfl
  | backward => rfl

/-- No entity has a shortcut, and all lists are in order. -/
structure Bare (a : Adjacency) : Prop where
  /-- Edges are statements. -/
  single : ∀ (k : Key) (e : Entity), a.entities[k]? = some e → ∀ (d : Direction),
    ∀ x ∈ d.edges e, x.quantifier = .single
  /-- Entities are tidy. -/
  tidy : ∀ (k : Key) (e : Entity), a.entities[k]? = some e → ∃ e' : Entity, e = e'.tidy

theorem bare_ofStatements (ss : List Statement) : (ofStatements ss).Bare := by
  have h : (ss.foldl Adjacency.addStatement empty).States ([] ++ ss) := states_empty.foldl
  have hat : ∀ (k : Key) (e : Entity), (ofStatements ss).entities[k]? = some e →
      e = ((ss.foldl Adjacency.addStatement empty).entityAt k).tidy := by
    intro k e he
    rw [ofStatements, getElem?_tidy] at he
    obtain ⟨e', he', rfl⟩ := Option.map_eq_some_iff.mp he
    rw [entityAt, he', Option.getD_some]
  refine ⟨fun k e he d x hx => ?_, fun k e he => ⟨_, hat k e he⟩⟩
  rw [hat k e he, edges_tidy, mem_sortedUnique] at hx
  exact ((h.edge d k x).mp hx).1

/-- A statement of a predicate leads from one entity to another. -/
def Leads (a : Adjacency) (p k l : Key) : Prop :=
  ∃ e, a.entities[k]? = some e ∧ l ∈ Entity.statements e.outgoing p

/-- An adjacency is what became of another one to which all shortcuts were added. -/
structure Completes (a b : Adjacency) (n : Nat) : Prop where
  /-- There are the same entities. -/
  keys : ∀ k, k ∈ b.entities ↔ k ∈ a.entities
  /-- They have their statements as before. -/
  plain : ∀ (k : Key) (e e' : Entity), a.entities[k]? = some e → b.entities[k]? = some e' →
    ∀ d : Direction, (d.edges e').filter (fun x => x.quantifier = .single) = d.edges e
  /-- They have their endpoints as before. -/
  endpoints : ∀ (k : Key) (e e' : Entity), a.entities[k]? = some e → b.entities[k]? = some e' →
    e'.endpoints = e.endpoints
  /-- Shortcuts go out to what statements lead to. -/
  outgoing : ∀ (k : Key) (e' : Entity), b.entities[k]? = some e' → ∀ p l,
    l ∈ Entity.shortcuts e'.outgoing p ↔ TransGen (a.Leads p) k l
  /-- Shortcuts come in from where statements lead here. -/
  incoming : ∀ (k : Key) (e' : Entity), b.entities[k]? = some e' → ∀ p l,
    l ∈ Entity.shortcuts e'.incoming p ↔ TransGen (a.Leads p) l k
  /-- No shortcut is repeated. -/
  nodup : ∀ (k : Key) (e' : Entity), b.entities[k]? = some e' → ∀ (d : Direction) (p : Key),
    (Entity.shortcuts (d.edges e') p).Nodup
  /-- The shortcuts are counted. -/
  count : (b.toList.map fun e => (e.outgoing.filter fun x => x.quantifier ≠ .single).length).sum = n

theorem mem_edges_completed {e : Entity} {d : Direction} {x : Edge} :
    x ∈ d.edges (e.link links).tidy ↔ x ∈ d.edges e ∨
      x.quantifier = .onePlus ∧ d.Hops links x.predicate e.key x.value := by
  rw [edges_tidy, mem_sortedUnique, Entity.mem_edges_link]

theorem getElem?_completed : (a.link links).tidy.entities[k]? =
    a.entities[k]?.map fun e => (e.link links).tidy := by
  rw [getElem?_tidy, getElem?_link, Option.map_map]
  rfl

/-- The statements of an entity are left alone. -/
theorem Bare.filter_completed (hb : a.Bare) {e : Entity} (he : a.entities[k]? = some e)
    {d : Direction} :
    (d.edges (e.link links).tidy).filter (fun x => x.quantifier = .single) = d.edges e := by
  have hascending : ∀ e : Entity, (d.edges e.tidy).Pairwise fun x y => compare x y = .lt := by
    intro e
    rw [edges_tidy]
    exact sortedUnique_ascending _
  refine eq_of_ascending ((hascending _).filter _) ?_ fun x => ?_
  · obtain ⟨e', rfl⟩ := hb.tidy k e he
    exact hascending e'
  · rw [List.mem_filter, mem_edges_completed, decide_eq_true_eq]
    constructor
    · rintro ⟨hx | ⟨hx, -⟩, hsingle⟩
      · exact hx
      · rw [hx] at hsingle
        cases hsingle
    · intro hx
      exact ⟨.inl hx, hb.single k e he d x hx⟩

theorem Bare.endpoints_completed (hb : a.Bare) {e : Entity} (he : a.entities[k]? = some e) :
    (e.link links).tidy.endpoints = e.endpoints := by
  obtain ⟨e', rfl⟩ := hb.tidy k e he
  refine eq_of_ascending (sortedUnique_ascending _) (sortedUnique_ascending _) fun x => ?_
  exact mem_sortedUnique

/-- A shortcut is one of the links. -/
theorem Bare.mem_filter_completed (hb : a.Bare) {e : Entity} (he : a.entities[k]? = some e)
    {d : Direction} {x : Edge} :
    x ∈ (d.edges (e.link links).tidy).filter (fun x => x.quantifier ≠ .single) ↔
      x.quantifier = .onePlus ∧ d.Hops links x.predicate e.key x.value := by
  rw [List.mem_filter, mem_edges_completed, decide_eq_true_eq]
  constructor
  · rintro ⟨hx | hx, hne⟩
    · exact absurd (hb.single k e he d x hx) hne
    · exact hx
  · rintro ⟨hq, hx⟩
    exact ⟨.inr ⟨hq, hx⟩, by simp [hq]⟩

/-! ## Shortcuts of a predicate -/

theorem mem_shortcuts {edges : List Edge} {p l : Key} : l ∈ Entity.shortcuts edges p ↔
    ∃ x ∈ edges.filter (fun x => x.quantifier ≠ .single), x.predicate.sameName p = true ∧
      x.value = l := by
  simp only [Entity.shortcuts, List.mem_map, List.mem_filter, Bool.and_eq_true, and_assoc]

/-- A predicate is looked up by its term, so it may as well be the key of that term here. -/
theorem exists_key_of_place (here : UInt32 × UInt64) (p : Key) :
    ∃ q : Key, q.place = here ∧ ∀ l : Key, l.sameName p = l.sameName q :=
  ⟨⟨here.1, p.name, here.2⟩, rfl, fun _ => rfl⟩

theorem leads_iff (hs : src.Presents here ss) (h : a.Shows ss) {p q s o : Key}
    (hq : q.place = here) (hsame : ∀ l : Key, l.sameName p = l.sameName q) :
    a.Leads p s o ↔ Hop ss q s o := by
  have hstatements : ∀ edges, Entity.statements edges p = Entity.statements edges q := by
    intro edges
    simp only [Entity.statements, hsame]
  constructor
  · rintro ⟨e, he, ho⟩
    obtain rfl := h.key s e he
    rw [hstatements] at ho
    exact ((h.describes _ e he).mem_statements (d := .forward) hs hq).mp ho
  · intro hop
    obtain ⟨e, he, rfl⟩ := h.toCovers.exists_entity hop.subject_isNode
    refine ⟨e, he, ?_⟩
    rw [hstatements]
    exact ((h.describes _ e he).mem_statements (d := .forward) hs hq).mpr hop

section Links

variable (hs : src.Presents here ss) (hb : a.Bare) (hl : Closure ss links) {e : Entity}
  (he : a.entities[k]? = some e) {d : Direction} {p q l : Key} (hq : q.place = here)
  (hsame : ∀ l : Key, l.sameName p = l.sameName q)

include hs hb hl he hq hsame

/-- A shortcut of a predicate is a link of it. -/
theorem eq_of_mem_filter_completed {x : Edge} (hp : x.predicate.sameName p = true)
    (hx : x ∈ (d.edges (e.link links).tidy).filter fun x => x.quantifier ≠ .single) :
    x = ⟨q, x.value, .onePlus⟩ := by
  obtain ⟨hquant, hop⟩ := (hb.mem_filter_completed he).mp hx
  obtain ⟨c, hhop, -⟩ := TransGen.head'_iff.mp (hl.hops_iff.mp hop)
  have hplace : x.predicate.place = here := (hs.hops_place hhop).1
  rw [hsame] at hp
  exact Edge.ext ((Key.sameName_iff (hplace.trans hq.symm)).mp hp) rfl hquant

/-- Shortcuts lead to what statements of the predicate lead to. -/
theorem mem_shortcuts_completed : l ∈ Entity.shortcuts (d.edges (e.link links).tidy) p ↔
    TransGen (d.Hops ss q) e.key l := by
  rw [mem_shortcuts, ← hl.hops_iff]
  constructor
  · rintro ⟨x, hx, hp, rfl⟩
    have hedge := eq_of_mem_filter_completed hs hb hl he hq hsame hp hx
    have hop := ((hb.mem_filter_completed he).mp hx).2
    rw [hedge] at hop
    exact hop
  · intro hop
    refine ⟨⟨q, l, .onePlus⟩, (hb.mem_filter_completed he).mpr ⟨rfl, hop⟩, ?_, rfl⟩
    rw [hsame]
    simp [Key.sameName]

theorem nodup_shortcuts_completed :
    (Entity.shortcuts (d.edges (e.link links).tidy) p).Nodup := by
  have hedges : (d.edges (e.link links).tidy).Nodup := by
    rw [edges_tidy]
    exact nodup_sortedUnique _
  refine List.Nodup.map_on ?_ (hedges.filter _)
  intro x hx y hy hxy
  simp only [List.mem_filter, Bool.and_eq_true] at hx hy
  have hfilter : ∀ z : Edge, z ∈ d.edges (e.link links).tidy →
      decide (z.quantifier ≠ .single) = true → z.predicate.sameName p = true →
        z = ⟨q, z.value, .onePlus⟩ := by
    intro z hz hquant hp
    exact eq_of_mem_filter_completed hs hb hl he hq hsame hp (List.mem_filter.mpr ⟨hz, hquant⟩)
  rw [hfilter x hx.1 hx.2.1 hx.2.2, hfilter y hy.1 hy.2.1 hy.2.2, hxy]

end Links

/-! ## All shortcuts -/

/-- The entities with links are those of the adjacency, with links. -/
theorem Covers.mem_toList_completed (h : a.Covers node) {e' : Entity} :
    e' ∈ (a.link links).tidy.toList ↔
      ∃ e, a.entities[e'.key]? = some e ∧ e' = (e.link links).tidy := by
  rw [h.link.tidy.mem_toList, getElem?_completed, Option.map_eq_some_iff]
  exact exists_congr fun e => and_congr_right fun _ => eq_comm

/-- There are as many shortcuts as links. -/
theorem count_completed (h : a.Shows ss) (hb : a.Bare) (hl : Closure ss links) :
    ((a.link links).tidy.toList.map fun e =>
      (e.outgoing.filter fun x => x.quantifier ≠ .single).length).sum = links.length := by
  obtain ⟨made, hmade⟩ : ∃ made : List Statement, made = (a.link links).tidy.toList.flatMap
      fun e => (e.outgoing.filter fun x => x.quantifier ≠ .single).map fun x =>
        ⟨e.key, x.predicate, x.value⟩ := ⟨_, rfl⟩
  have hmem : ∀ st, st ∈ made ↔ st ∈ links := by
    intro st
    rw [hmade, List.mem_flatMap]
    constructor
    · rintro ⟨e', he', hst⟩
      obtain ⟨e, he, rfl⟩ := h.toCovers.mem_toList_completed.mp he'
      obtain ⟨x, hx, rfl⟩ := List.mem_map.mp hst
      exact ((hb.mem_filter_completed (d := .forward) he).mp hx).2
    · intro hst
      obtain ⟨c, hop, -⟩ := TransGen.head'_iff.mp ((hl.hop_iff _ _ _).mp hst)
      obtain ⟨e, he, hkey⟩ := h.toCovers.exists_entity hop.subject_isNode
      refine ⟨_, h.toCovers.mem_toList_completed.mpr ⟨e, hkey ▸ he, rfl⟩, ?_⟩
      refine List.mem_map.mpr ⟨⟨st.predicate, st.object, .onePlus⟩, ?_, ?_⟩
      · refine (hb.mem_filter_completed (d := .forward) he).mpr ⟨rfl, ?_⟩
        rw [hkey]
        exact hst
      · exact Statement.ext hkey rfl rfl
  have hnodup : made.Nodup := by
    rw [hmade, List.nodup_flatMap]
    constructor
    · intro e' he'
      obtain ⟨e, he, rfl⟩ := h.toCovers.mem_toList_completed.mp he'
      refine List.Nodup.map_on ?_ ((nodup_sortedUnique _).filter _)
      intro x hx y hy hxy
      have hqx := ((hb.mem_filter_completed (d := .forward) he).mp hx).1
      have hqy := ((hb.mem_filter_completed (d := .forward) he).mp hy).1
      obtain ⟨-, hp, hv⟩ := Statement.mk.inj hxy
      exact Edge.ext hp hv (hqx.trans hqy.symm)
    · have hkeys := h.toCovers.link.tidy.nodup_keys (a := (a.link links).tidy)
      refine (List.pairwise_map.mp hkeys).imp ?_
      intro e e' hne st hst hst'
      obtain ⟨x, -, rfl⟩ := List.mem_map.mp hst
      obtain ⟨y, -, heq⟩ := List.mem_map.mp hst'
      exact hne (Statement.mk.inj heq).1.symm
  have hlen := ((List.perm_ext_iff_of_nodup hnodup hl.nodup).mpr hmem).length_eq
  rw [← hlen, hmade, List.length_flatMap]
  simp only [List.length_map]

/-- The closure of the statements completes their adjacency. -/
theorem completes_link (hs : src.Presents here ss) (h : a.Shows ss) (hb : a.Bare)
    (hl : Closure ss links) : a.Completes (a.link links).tidy links.length := by
  have hlook : ∀ (k : Key) (e' : Entity), (a.link links).tidy.entities[k]? = some e' →
      ∃ e, a.entities[k]? = some e ∧ e.key = k ∧ e' = (e.link links).tidy := by
    intro k e' he'
    rw [getElem?_completed] at he'
    obtain ⟨e, he, rfl⟩ := Option.map_eq_some_iff.mp he'
    exact ⟨e, he, h.key k e he, rfl⟩
  have hleads : ∀ (p q : Key), q.place = here → (∀ l : Key, l.sameName p = l.sameName q) →
      a.Leads p = Hop ss q := by
    intro p q hq hsame
    funext s o
    exact propext (leads_iff hs h hq hsame)
  constructor
  case keys =>
    intro k
    rw [h.toCovers.link.tidy.node, h.node]
  case plain =>
    intro k e e' he he' d
    obtain ⟨e₀, he₀, -, rfl⟩ := hlook k e' he'
    cases he.symm.trans he₀
    exact hb.filter_completed he
  case endpoints =>
    intro k e e' he he'
    obtain ⟨e₀, he₀, -, rfl⟩ := hlook k e' he'
    cases he.symm.trans he₀
    exact hb.endpoints_completed he
  case outgoing =>
    intro k e' he' p l
    obtain ⟨e, he, rfl, rfl⟩ := hlook k e' he'
    obtain ⟨q, hq, hsame⟩ := exists_key_of_place here p
    rw [hleads p q hq hsame]
    exact mem_shortcuts_completed (d := .forward) hs hb hl he hq hsame
  case incoming =>
    intro k e' he' p l
    obtain ⟨e, he, rfl, rfl⟩ := hlook k e' he'
    obtain ⟨q, hq, hsame⟩ := exists_key_of_place here p
    rw [hleads p q hq hsame]
    exact (mem_shortcuts_completed (d := .backward) hs hb hl he hq hsame).trans transGen_swap
  case nodup =>
    intro k e' he' d p
    obtain ⟨e, he, rfl, rfl⟩ := hlook k e' he'
    obtain ⟨q, hq, hsame⟩ := exists_key_of_place here p
    exact nodup_shortcuts_completed hs hb hl he hq hsame
  case count => exact count_completed h hb hl

/-! ## Stored shortcuts -/

theorem statements_eq_filter {edges : List Edge} {p : Key} : Entity.statements edges p =
    ((edges.filter fun x => x.quantifier = .single).filter fun x => x.predicate.sameName p).map
      Edge.value := by
  rw [List.filter_filter, Entity.statements]
  simp only [Bool.and_comm]

theorem Bare.statements_completed (hb : a.Bare) {e : Entity} (he : a.entities[k]? = some e)
    {d : Direction} {p : Key} : d.statements p (e.link links).tidy = d.statements p e := by
  rw [Direction.statements, Direction.statements, statements_eq_filter, hb.filter_completed he,
    statements_eq_filter]
  congr 2
  exact (List.filter_eq_self.mpr fun x hx => by simp [hb.single k e he d x hx]).symm

theorem Bare.hops_eq (hb : a.Bare) {e : Entity} (he : a.entities[k]? = some e) {d : Direction}
    {p : Key} : d.hops p e = d.statements p e := by
  have hnone : Entity.shortcuts (d.edges e) p = [] := by
    rw [Entity.shortcuts, List.map_eq_nil_iff, List.filter_eq_nil_iff]
    intro x hx
    simp [hb.single k e he d x hx]
  rw [Direction.hops, hnone]
  rfl

/-- Records with shortcuts can take the place of those without. -/
theorem shortened_putEntities {s : Store}
    (hs : Source.Presents here ss (s.putEntities a.toList).entity) (h : a.Shows ss) (hb : a.Bare)
    (hl : Closure ss links) (hfit : ∀ e ∈ a.toList, e.Recordable)
    (hfit' : ∀ e ∈ (a.link links).tidy.toList, e.Recordable) :
    Reading.Shortened (s.putEntities a.toList).entity
      ((s.putEntities a.toList).putEntities (a.link links).tidy.toList).entity := by
  obtain ⟨src, hsrc⟩ : ∃ src, src = (s.putEntities a.toList).entity := ⟨_, rfl⟩
  obtain ⟨src', hsrc'⟩ : ∃ src', src' =
    ((s.putEntities a.toList).putEntities (a.link links).tidy.toList).entity := ⟨_, rfl⟩
  have hnode : ∀ (k : Key) (e : Entity), a.entities[k]? = some e →
      src k = .ok e ∧ src' k = .ok (e.link links).tidy := by
    intro k e he
    have he' : (a.link links).tidy.entities[k]? = some (e.link links).tidy := by
      rw [getElem?_completed, he]
      rfl
    exact ⟨hsrc ▸ h.toCovers.entity_putEntities hfit he,
      hsrc' ▸ h.toCovers.link.tidy.entity_putEntities hfit' he'⟩
  have hother : ∀ k : Key, a.entities[k]? = none → src' k = src k := by
    intro k hk
    have hn : ¬ IsNode ss k := by
      rw [← h.node, Std.ExtTreeMap.mem_iff_isSome_getElem?, hk]
      simp
    rw [hsrc, hsrc']
    exact Store.entity_of_record (h.toCovers.link.tidy.record_putEntities hn)
  rw [← hsrc, ← hsrc']
  rw [← hsrc] at hs
  constructor
  case readable =>
    intro k
    cases he : a.entities[k]? with
    | none => rw [hother k he]
    | some e =>
      obtain ⟨hk, hk'⟩ := hnode k e he
      exact iff_of_true ⟨_, hk'⟩ ⟨_, hk⟩
  case statements =>
    intro d p k l
    cases he : a.entities[k]? with
    | none => rw [Reading.Step, Reading.Step, hother k he]
    | some e =>
      obtain ⟨hk, hk'⟩ := hnode k e he
      rw [Reading.step_iff_of_read hk, Reading.step_iff_of_read hk', hb.statements_completed he]
  case kept =>
    intro d p k l hstep
    cases he : a.entities[k]? with
    | none => rwa [Reading.Step, hother k he]
    | some e =>
      obtain ⟨hk, hk'⟩ := hnode k e he
      rw [Reading.step_iff_of_read hk, hb.hops_eq he, ← hb.statements_completed he] at hstep
      exact (Reading.step_iff_of_read hk').mpr (List.mem_append_right _ hstep)
  case sound =>
    intro d p k l hstep
    cases he : a.entities[k]? with
    | none =>
      rw [Reading.Step, hother k he] at hstep
      exact .single hstep
    | some e =>
      obtain ⟨hk, hk'⟩ := hnode k e he
      obtain rfl := h.key k e he
      obtain ⟨q, hq, hsame⟩ := exists_key_of_place here p
      have hhops : d.hops p = d.hops q := by
        funext e
        simp only [Direction.hops, Entity.shortcuts, Entity.statements, hsame]
      rw [Reading.step_iff_of_read hk'] at hstep
      rcases List.mem_append.mp hstep with hl' | hl'
      · have hwalk := (mem_shortcuts_completed hs hb hl he hq hsame).mp hl'
        rw [hhops]
        exact TransGen.mono (fun _ _ hop => Reading.step_of_hops hs hq hop) _ _ hwalk
      · refine .single ((Reading.step_iff_of_read hk).mpr ?_)
        rw [hb.hops_eq he, ← hb.statements_completed he]
        exact hl'

end Adjacency

namespace Tables

variable {t t₁ : Tables} {graph : String} {version : UInt64} {ts : List Triple} {a : Adjacency}
  {d : Dictionary}

/-- Shortcuts can be added to a version that is stored.  They are the closure of its statements,
and when they are stored too every segment leads where it led before. -/
theorem completes_of_compile (namespaces : Namespaces) (hd : t.dictionary.Sound)
    (hts : FitsMemory ts) (hc : Adjacency.compile graph version ts t.dictionary = .ok (a, d))
    (hput : putAdjacency { t with dictionary := d } a = t₁) :
    ∃ n b c, (Cursor.new graph version namespaces).addAllShortcuts t₁ a = (.ok n, b, c) ∧
      a.Completes b n ∧
      ∀ c₁ c₂ : Cursor, c₁.Faithful t₁ → c₂.Faithful (t₁.putAdjacency b) →
        ∀ (dir : Direction) (start : Key) (seg : Segment) (r : Reach),
          (c₂.run (t₁.putAdjacency b) (Reading.follow dir start seg)).1 = .ok r ↔
            (c₁.run t₁ (Reading.follow dir start seg)).1 = .ok r := by
  obtain ⟨-, -, -, ha⟩ := Adjacency.compile_spec hd hc
  have hfinal : a.Final (statementsIn graph version ts) := ha ▸ Adjacency.final_ofStatements _
  have hbare : a.Bare := ha ▸ Adjacency.bare_ofStatements _
  have hfit := recordable_of_fitsMemory hts hfinal
  have hstore : t₁.store = t.store.putEntities a.toList := hput ▸ rfl
  have hs : Source.Presents (Checksum.ofText graph, version) (statementsIn graph version ts)
      t₁.store.entity := by
    rw [hstore]
    exact ⟨fun k hk => place_of_isNode hk, fun k hk => hfinal.shows.entity_putEntities hfit hk⟩
  obtain ⟨links, hl, hout, hadj⟩ := Adjacency.addAllShortcuts_eq hs hfinal.shows
  have hfit' := recordable_of_fitsMemory hts ⟨_, hfinal.shows.link hl, rfl⟩
  have hshort : Reading.Shortened t₁.store.entity
      (t₁.putAdjacency (a.link links).tidy).store.entity := by
    rw [putAdjacency, hstore]
    rw [hstore] at hs
    exact Adjacency.shortened_putEntities hs hfinal.shows hbare hl hfit hfit'
  have hadd : (Cursor.new graph version namespaces).addAllShortcuts t₁ a =
      (.ok links.length, (a.link links).tidy, ((Cursor.new graph version namespaces).addAllShortcuts
        t₁ a).2.2) := by
    rw [Cursor.addAllShortcuts, source_new, hout, hadj]
  refine ⟨links.length, (a.link links).tidy, _, hadd, ?_, fun c₁ c₂ h₁ h₂ dir start seg r => ?_⟩
  · exact Adjacency.completes_link hs hfinal.shows hbare hl
  · rw [Cursor.run, Cursor.run, h₁.source, h₂.source]
    exact hshort.follow_iff

/-- Two statements of one predicate that lead around in a circle. -/
def circle : List Triple :=
  [⟨⟨"", "a"⟩, ⟨"", "p"⟩, ⟨"", "b"⟩⟩, ⟨⟨"", "b"⟩, ⟨"", "p"⟩, ⟨"", "a"⟩⟩]

theorem completes_of_compile_circle :
    ∃ a d t₁, Adjacency.compile "g" 1 circle .empty = .ok (a, d) ∧
      putAdjacency ⟨.empty, d⟩ a = t₁ ∧
      ∃ b c, (Cursor.new "g" 1 ∅).addAllShortcuts t₁ a = (.ok 4, b, c) ∧ a.Completes b 4 ∧
        ∀ (start : Key) (seg : Segment) (r : Reach),
          ((Cursor.new "g" 1 ∅).run (t₁.putAdjacency b) (Reading.follow .forward start seg)).1 =
              .ok r ↔
            ((Cursor.new "g" 1 ∅).run t₁ (Reading.follow .forward start seg)).1 = .ok r := by
  have hcount : ((Adjacency.compile "g" 1 circle .empty).toOption.bind fun p =>
      ((Cursor.new "g" 1 ∅).addAllShortcuts (putAdjacency ⟨.empty, p.2⟩ p.1) p.1).1.toOption) =
        some 4 := by decide +kernel
  cases hc : Adjacency.compile "g" 1 circle .empty with
  | error f =>
    rw [hc] at hcount
    cases hcount
  | ok p =>
    obtain ⟨a, d⟩ := p
    have hfits : FitsMemory circle := by decide
    obtain ⟨n, b, c, hadd, hcompletes, hfollow⟩ :=
      completes_of_compile (t := default) ∅ Dictionary.sound_empty hfits hc rfl
    have hn : (Except.ok n : Except Fault Nat).toOption = some 4 := by
      rw [hc] at hcount
      exact (congrArg (fun x => x.1.toOption) hadd).symm.trans hcount
    cases hn
    refine ⟨a, d, _, rfl, rfl, b, c, hadd, hcompletes, ?_⟩
    exact hfollow _ _ Cursor.faithful_new Cursor.faithful_new .forward

end Tables

end TripleStore
