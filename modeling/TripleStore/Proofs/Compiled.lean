import TripleStore.Proofs.Dictionary.Staging
import TripleStore.Proofs.Shortcuts.Complete

/-!
# Compiled triples

Triples are compiled into the adjacency of their statements.  A triple is entered
three times, and its terms may be the same, but nothing is lost or mixed up by that:
the lists of an entity have an entry for each triple it takes part in, and no other.

That no two terms share an entity is due to the dictionary.  A term that has a key
after the triples were registered either occurs in them or has another key than the
terms that do.

So the adjacency says which triples there are and nothing else, and lists of the same
triples are compiled alike.
-/

namespace TripleStore

namespace Adjacency

variable {a : Adjacency} {ss ss' : List Statement} {k : Key} {x : Edge} {dir : Direction}
  {graph : String} {version : UInt64} {ts us : List Triple} {tr : Triple} {st : Statement}
  {d d' : Dictionary}

/-! ## The adjacency of statements -/

theorem states_foldl (ss : List Statement) : (ss.foldl Adjacency.addStatement empty).States ss :=
  states_empty.foldl

theorem entityAt_tidy : a.tidy.entityAt k = (a.entityAt k).tidy := by
  rw [entityAt, entityAt, getElem?_tidy]
  cases a.entities[k]? with
  | none => rfl
  | some e => rfl

/-- The edges of an entity are the statements around it. -/
theorem mem_edges_ofStatements (dir : Direction) : x ∈ dir.edges ((ofStatements ss).entityAt k) ↔
    x.quantifier = .single ∧ dir.Hops ss x.predicate k x.value := by
  rw [ofStatements, entityAt_tidy, edges_tidy, mem_sortedUnique, (states_foldl ss).edge]

/-- Its endpoints are the ends of the statements it is the predicate of. -/
theorem mem_endpoints_ofStatements {x : Endpoint} :
    x ∈ ((ofStatements ss).entityAt k).endpoints ↔ Hop ss k x.subject x.object := by
  rw [ofStatements, entityAt_tidy]
  exact mem_sortedUnique.trans ((states_foldl ss).ending k x.subject x.object)

theorem key_ofStatements : ((ofStatements ss).entityAt k).key = k := by
  rw [ofStatements, entityAt_tidy]
  exact (states_foldl ss).key k

theorem edges_ascending : (dir.edges ((ofStatements ss).entityAt k)).Pairwise
    fun x y => compare x y = .lt := by
  rw [ofStatements, entityAt_tidy, edges_tidy]
  exact sortedUnique_ascending _

theorem endpoints_ascending : ((ofStatements ss).entityAt k).endpoints.Pairwise
    fun x y => compare x y = .lt := by
  rw [ofStatements, entityAt_tidy]
  exact sortedUnique_ascending _

/-- An adjacency is made up of its keys and their entities. -/
theorem ext_entityAt {b : Adjacency} (hkeys : ∀ k, k ∈ a.entities ↔ k ∈ b.entities)
    (h : ∀ k, a.entityAt k = b.entityAt k) : a = b := by
  refine Adjacency.ext (Std.ExtTreeMap.ext_getElem? fun k => ?_)
  have hk := hkeys k
  have hat := h k
  rw [Std.ExtTreeMap.mem_iff_isSome_getElem?, Std.ExtTreeMap.mem_iff_isSome_getElem?] at hk
  rw [entityAt, entityAt] at hat
  cases ha : a.entities[k]? with
  | none => cases hb : b.entities[k]? with
    | none => rfl
    | some e => simp [ha, hb] at hk
  | some e => cases hb : b.entities[k]? with
    | none => simp [ha, hb] at hk
    | some e' => simpa [ha, hb] using hat

/-- The adjacency depends on which statements there are. -/
theorem ofStatements_congr (h : ∀ st, st ∈ ss ↔ st ∈ ss') : ofStatements ss = ofStatements ss' := by
  have hhops : ∀ (dir : Direction) (p k l : Key), dir.Hops ss p k l ↔ dir.Hops ss' p k l := by
    intro dir p k l
    cases dir with
    | forward => exact h _
    | backward => exact h _
  refine ext_entityAt (fun k => ?_) fun k => ?_
  · rw [(final_ofStatements ss).shows.node, (final_ofStatements ss').shows.node]
    exact exists_congr fun st => and_congr_left' (h st)
  · have hedges : ∀ dir : Direction, dir.edges ((ofStatements ss).entityAt k) =
        dir.edges ((ofStatements ss').entityAt k) := by
      intro dir
      refine eq_of_ascending edges_ascending edges_ascending fun x => ?_
      rw [mem_edges_ofStatements, mem_edges_ofStatements, hhops]
    refine Entity.ext ?_ (hedges .forward) (hedges .backward) ?_
    · rw [key_ofStatements, key_ofStatements]
    · refine eq_of_ascending endpoints_ascending endpoints_ascending fun x => ?_
      rw [mem_endpoints_ofStatements, mem_endpoints_ofStatements]
      exact h _

/-! ## The statements of triples -/

/-- The nodes of triples are the keys of their terms. -/
theorem isNode_statementsIn : IsNode (statementsIn graph version ts) k ↔
    ∃ tr ∈ ts, ∃ u ∈ tr.terms, k = Key.ofUri graph u version := by
  constructor
  · exact exists_term_of_isNode
  · rintro ⟨tr, htr, u, hu, rfl⟩
    refine ⟨_, List.mem_map.mpr ⟨tr, htr, rfl⟩, ?_⟩
    simp only [Triple.terms, List.mem_cons, List.not_mem_nil, or_false] at hu
    rcases hu with rfl | rfl | rfl
    · exact .inl rfl
    · exact .inr (.inl rfl)
    · exact .inr (.inr rfl)

/-- A known term has its key. -/
theorem keyFor_of_knows {u : Uri} (hd : d.Sound) (hu : d.Knows u) :
    d.keyFor graph u version = .ok (Key.ofUri graph u version) := by
  obtain ⟨k, hk⟩ : ∃ k, d.keyFor graph u version = .ok k := hu.exists_keyFor
  rw [hk, hd.keyFor_eq hk]

/-- A triple whose terms have keys is among some that are known if its statement is among
theirs. -/
theorem mem_statementsIn (hd : d.Sound) (hts : ∀ tr ∈ ts, ∀ u ∈ tr.terms, d.Knows u)
    (h : Statement.ofTriple d graph version tr = .ok st) :
    st ∈ statementsIn graph version ts ↔ tr ∈ ts := by
  obtain rfl := ofTriple_eq hd h
  obtain ⟨ks, hs, h⟩ := bind_eq_ok.mp h
  obtain ⟨kp, hp, h⟩ := bind_eq_ok.mp h
  obtain ⟨ko, ho, h⟩ := bind_eq_ok.mp h
  constructor
  · intro hmem
    obtain ⟨tr', htr', heq⟩ := List.mem_map.mp hmem
    obtain ⟨hsubject, hpredicate, hobject⟩ := (Statement.ext_iff ..).mp heq
    have hsame : tr' = tr := by
      refine Triple.ext ?_ ?_ ?_
      · exact hd.eq_of_keyFor (hts tr' htr' _ (by simp [Triple.terms])) hs
          (congrArg Key.name hsubject)
      · exact hd.eq_of_keyFor (hts tr' htr' _ (by simp [Triple.terms])) hp
          (congrArg Key.name hpredicate)
      · exact hd.eq_of_keyFor (hts tr' htr' _ (by simp [Triple.terms])) ho
          (congrArg Key.name hobject)
    exact hsame ▸ htr'
  · exact List.mem_map_of_mem

/-- A statement of known triples is that of one of them. -/
theorem exists_ofTriple_of_mem (hd : d.Sound) (hts : ∀ tr ∈ ts, ∀ u ∈ tr.terms, d.Knows u)
    (h : st ∈ statementsIn graph version ts) :
    ∃ tr ∈ ts, Statement.ofTriple d graph version tr = .ok st := by
  obtain ⟨tr, htr, rfl⟩ := List.mem_map.mp h
  obtain ⟨st, hst⟩ : ∃ st, Statement.ofTriple d graph version tr = .ok st :=
    exists_ofTriple (hts tr htr)
  exact ⟨tr, htr, ofTriple_eq hd hst ▸ hst⟩

/-! ## Compiling -/

/-- An adjacency says which triples there are, in the keys of a dictionary.  A key without an
entity counts as one that nothing touches. -/
structure Renders (a : Adjacency) (d : Dictionary) (graph : String) (version : UInt64)
    (ts : List Triple) : Prop where
  /-- A term that occurs has its key. -/
  keyed : ∀ tr ∈ ts, ∀ u ∈ tr.terms,
    d.keyFor graph u version = .ok (Key.ofUri graph u version)
  /-- No other term has it. -/
  distinct : ∀ tr ∈ ts, ∀ u ∈ tr.terms, ∀ w,
    d.keyFor graph w version = .ok (Key.ofUri graph u version) → w = u
  /-- There is an entity for each term that occurs, under its key, and no other. -/
  node : ∀ k, k ∈ a.entities ↔ ∃ tr ∈ ts, ∃ u ∈ tr.terms, k = Key.ofUri graph u version
  /-- An entity has the key it is kept under. -/
  key : ∀ k, (a.entityAt k).key = k
  /-- A triple is an edge that leaves its subject. -/
  outgoing : ∀ tr st, Statement.ofTriple d graph version tr = .ok st →
    (⟨st.predicate, st.object, .single⟩ ∈ (a.entityAt st.subject).outgoing ↔ tr ∈ ts)
  /-- It is an edge that arrives at its object. -/
  incoming : ∀ tr st, Statement.ofTriple d graph version tr = .ok st →
    (⟨st.predicate, st.subject, .single⟩ ∈ (a.entityAt st.object).incoming ↔ tr ∈ ts)
  /-- It is an endpoint of its predicate. -/
  endpoints : ∀ tr st, Statement.ofTriple d graph version tr = .ok st →
    (⟨st.subject, st.object⟩ ∈ (a.entityAt st.predicate).endpoints ↔ tr ∈ ts)
  /-- There are no other edges that leave an entity. -/
  of_outgoing : ∀ k, ∀ x ∈ (a.entityAt k).outgoing, x.quantifier = .single ∧
    ∃ tr ∈ ts, Statement.ofTriple d graph version tr = .ok ⟨k, x.predicate, x.value⟩
  /-- There are no other edges that arrive at one. -/
  of_incoming : ∀ k, ∀ x ∈ (a.entityAt k).incoming, x.quantifier = .single ∧
    ∃ tr ∈ ts, Statement.ofTriple d graph version tr = .ok ⟨x.value, x.predicate, k⟩
  /-- There are no other endpoints. -/
  of_endpoints : ∀ k, ∀ x ∈ (a.entityAt k).endpoints,
    ∃ tr ∈ ts, Statement.ofTriple d graph version tr = .ok ⟨x.subject, k, x.object⟩
  /-- Edges come in order, each once, in either direction. -/
  edges_ascending : ∀ (dir : Direction) (k : Key),
    (dir.edges (a.entityAt k)).Pairwise fun x y => compare x y = .lt
  /-- So do endpoints. -/
  endpoints_ascending : ∀ k, (a.entityAt k).endpoints.Pairwise fun x y => compare x y = .lt

/-- The adjacency of the statements of known triples says which ones there are. -/
theorem renders_ofStatements (hd : d.Sound) (hts : ∀ tr ∈ ts, ∀ u ∈ tr.terms, d.Knows u) :
    (ofStatements (statementsIn graph version ts)).Renders d graph version ts where
  keyed tr htr u hu := keyFor_of_knows hd (hts tr htr u hu)
  distinct tr htr u hu w hw :=
    (hd.eq_of_keyFor (hts tr htr u hu) hw (congrArg Key.name (hd.keyFor_eq hw))).symm
  node k := by
    rw [(final_ofStatements _).shows.node, isNode_statementsIn]
  key k := key_ofStatements
  outgoing tr st hst := by
    rw [← mem_statementsIn hd hts hst]
    exact (mem_edges_ofStatements .forward).trans (and_iff_right rfl)
  incoming tr st hst := by
    rw [← mem_statementsIn hd hts hst]
    exact (mem_edges_ofStatements .backward).trans (and_iff_right rfl)
  endpoints tr st hst := by
    rw [← mem_statementsIn hd hts hst]
    exact mem_endpoints_ofStatements
  of_outgoing k x hx := by
    obtain ⟨hq, hhop⟩ := (mem_edges_ofStatements .forward).mp hx
    exact ⟨hq, exists_ofTriple_of_mem hd hts hhop⟩
  of_incoming k x hx := by
    obtain ⟨hq, hhop⟩ := (mem_edges_ofStatements .backward).mp hx
    exact ⟨hq, exists_ofTriple_of_mem hd hts hhop⟩
  of_endpoints k x hx := exists_ofTriple_of_mem hd hts (mem_endpoints_ofStatements.mp hx)
  edges_ascending _ _ := Adjacency.edges_ascending
  endpoints_ascending _ := Adjacency.endpoints_ascending

/-- Lists of the same triples are compiled alike. -/
theorem compile_congr (hd : d.Sound) (hc : compile graph version ts d = .ok (a, d'))
    (hus : ∀ tr, tr ∈ us ↔ tr ∈ ts) : compile graph version us d = .ok (a, d') := by
  obtain ⟨hsound, -, hknows, ha⟩ := compile_spec hd hc
  obtain ⟨d₁, hreg, hc⟩ := bind_eq_ok.mp hc
  obtain ⟨ss, -, hc⟩ := bind_eq_ok.mp hc
  obtain ⟨-, rfl⟩ := Prod.mk.inj (Except.ok.inj hc)
  have hterms : ∀ u, u ∈ us.flatMap Triple.terms ↔ u ∈ ts.flatMap Triple.terms := by
    intro u
    simp only [List.mem_flatMap, hus]
  have hall : ∀ tr ∈ us, ∃ st, Statement.ofTriple d₁ graph version tr = .ok st :=
    fun tr htr => exists_ofTriple (hknows tr ((hus tr).mp htr))
  obtain ⟨ss', hss'⟩ := exists_mapM hall
  have heq : ss' = statementsIn graph version us :=
    eq_map_of_mapM (fun _ _ hst => ofTriple_eq hsound hst) hss'
  have hsame : ofStatements ss' = a := by
    rw [heq, ha]
    refine ofStatements_congr fun st => ?_
    simp only [statementsIn, List.mem_map, hus]
  refine bind_eq_ok.mpr ⟨d₁, Dictionary.registerAll_congr hreg hterms, ?_⟩
  refine bind_eq_ok.mpr ⟨ss', hss', ?_⟩
  rw [hsame]
  rfl

/-- What is compiled says which triples there are and nothing else, and it does not depend on
how often and in which order they come. -/
theorem renders_of_compile (hd : d.Reached) (hc : compile graph version ts d = .ok (a, d')) :
    a.Renders d' graph version ts ∧
      ∀ us, (∀ tr, tr ∈ us ↔ tr ∈ ts) → compile graph version us d = .ok (a, d') := by
  obtain ⟨hsound, -, hknows, rfl⟩ := compile_spec hd.sound hc
  exact ⟨renders_ofStatements hsound hknows, fun us hus => compile_congr hd.sound hc hus⟩

/-- A term in all three positions at once, and a triple that comes twice. -/
def knotted : List Triple :=
  [⟨⟨"", "a"⟩, ⟨"", "p"⟩, ⟨"", "b"⟩⟩, ⟨⟨"", "p"⟩, ⟨"", "p"⟩, ⟨"", "p"⟩⟩,
    ⟨⟨"", "a"⟩, ⟨"", "p"⟩, ⟨"", "b"⟩⟩]

theorem renders_of_compile_knotted :
    ∃ a d', compile "g" 7 knotted .empty = .ok (a, d') ∧ a.Renders d' "g" 7 knotted ∧
      compile "g" 7 knotted.eraseDups.reverse .empty = .ok (a, d') := by
  have hok : (compile "g" 7 knotted .empty).toOption.isSome := by decide +kernel
  obtain ⟨⟨a, d'⟩, hsome⟩ := Option.isSome_iff_exists.mp hok
  have hc : compile "g" 7 knotted .empty = .ok (a, d') := eq_ok_of_toOption hsome
  obtain ⟨hrenders, hsame⟩ := renders_of_compile .empty hc
  exact ⟨a, d', hc, hrenders, hsame _ fun tr => by rw [List.mem_reverse, List.mem_eraseDups]⟩

end Adjacency

end TripleStore
