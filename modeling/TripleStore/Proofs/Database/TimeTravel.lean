import TripleStore.Proofs.Database.Answer
import TripleStore.Proofs.Query.Stable

/-!
# Queries about the past

An insertion does not change what a query says about a time before the version
that it makes.  The query finds the same versions, and the records of these stay
as they are.

There is one thing that a graph keeps for all its versions together, and this is
what its prefixes stand for.  So the names in the query have to stand for the
same terms after the insertion, in the graph that something is inserted into.
-/

namespace TripleStore

namespace Database

variable {db db' : Database} {graph g : String} {now t v : UInt64} {d : Dataset}
  {held : List Triple} {c : Cursor} {cs cs' : List Cursor} {q : Query} {r r' : Response}
  {clock : List UInt64}

/-! ## The same versions -/

/-- A version that has not come yet is not found. -/
theorem newestBy_append {vs : List UInt64} (h : t < v) :
    newestBy (some t) (vs ++ [v]) = newestBy (some t) vs := by
  have hv : ¬ v ≤ t := UInt64.not_le.mpr h
  simp [newestBy, hv]

theorem Makes.toOption_resolve (h : db.Makes graph v d held db') (ht : t < v) :
    (db'.resolve g (some t)).toOption = (db.resolve g (some t)).toOption := by
  rw [Database.toOption_resolve, Database.toOption_resolve, h.versionsOf]
  split
  · exact newestBy_append ht
  · rfl

/-- A cursor on the same version, with the prefixes that a database has. -/
def renew (db : Database) (c : Cursor) : Cursor := .new c.graph c.version (db.namespaces c.graph)

theorem toOption_cursor {time : Option UInt64} : (db.cursor g time).toOption =
    (db.resolve g time).toOption.map fun v => .new g v (db.namespaces g) := by
  rw [cursor]
  cases db.resolve g time with
  | error f => rfl
  | ok v => rfl

/-- A cursor on an earlier version is the same but for the prefixes. -/
theorem Makes.toOption_cursor (h : db.Makes graph v d held db') (ht : t < v) :
    (db'.cursor g (some t)).toOption = (db.cursor g (some t)).toOption.map db'.renew := by
  rw [Database.toOption_cursor, Database.toOption_cursor, h.toOption_resolve ht, Option.map_map]
  rfl

theorem Makes.mem_catalogue (h : db.Makes graph v d held db') :
    g ∈ db'.catalogue ↔ graph = g ∨ g ∈ db.catalogue := by
  simp only [h.catalogue, Std.ExtTreeMap.mem_alter, Std.LawfulEqOrd.compare_eq_iff_eq]
  by_cases hg : graph = g
  · simp [hg]
  · simp [hg]

/-- The graphs that were there are there, in the same order. -/
theorem Makes.filter_graphs (h : db.Makes graph v d held db') :
    db'.graphs.filter (fun g => g ∈ db.catalogue) = db.graphs := by
  have hsorted : ∀ c : Catalogue, c.keys.Pairwise fun a b => compare a b = .lt :=
    fun _ => Std.ExtTreeMap.ordered_keys
  refine eq_of_ascending ((hsorted _).filter _) (hsorted _) fun g => ?_
  have hmem : g ∈ db'.catalogue.keys ↔ graph = g ∨ g ∈ db.catalogue :=
    Std.ExtTreeMap.mem_keys.trans h.mem_catalogue
  have hmem' : g ∈ db.catalogue.keys ↔ g ∈ db.catalogue := Std.ExtTreeMap.mem_keys
  rw [List.mem_filter, decide_eq_true_eq]
  exact ⟨fun hg => hmem'.mpr hg.2, fun hg => ⟨hmem.mpr (.inr (hmem'.mp hg)), hmem'.mp hg⟩⟩

theorem toOption_cursor_of_notMem {time : Option UInt64} (h : g ∉ db.catalogue) :
    (db.cursor g time).toOption = none := by
  rw [toOption_cursor, toOption_resolve, versionsOf, Std.ExtTreeMap.getElem?_eq_none h]
  cases time <;> rfl

/-- A query about the past finds the same versions. -/
theorem Makes.cursors (h : db.Makes graph v d held db') (hpin : q.version = some t) (ht : t < v)
    (hcs : db.cursors q = .ok cs) (hcs' : db'.cursors q = .ok cs') : cs' = cs.map db'.renew := by
  have hcursor : ∀ g, (db'.cursor g (some t)).toOption =
      (db.cursor g (some t)).toOption.map db'.renew := fun _ => h.toOption_cursor ht
  rw [Database.cursors, hpin] at hcs hcs'
  cases hall : q.wantsAllGraphs with
  | true =>
    rw [hall, if_pos rfl] at hcs hcs'
    cases hcs
    cases hcs'
    -- a graph that is new has no version by then
    have hold : db'.graphs.filterMap (fun g => (db'.cursor g (some t)).toOption) =
        db.graphs.filterMap fun g => (db'.cursor g (some t)).toOption := by
      rw [← h.filter_graphs, List.filterMap_filter]
      refine List.filterMap_congr fun g _ => ?_
      by_cases hg : g ∈ db.catalogue
      · simp [hg]
      · simp [hg, hcursor, toOption_cursor_of_notMem hg]
    rw [hold, List.map_filterMap]
    exact List.filterMap_congr fun g _ => hcursor g
  | false =>
    rw [hall, if_neg Bool.false_ne_true] at hcs hcs'
    have hmap : q.graphs.mapM (fun g => (db.cursor g (some t)).map db'.renew) =
        .ok (cs.map db'.renew) := by
      rw [mapM_eq_ok, List.forall₂_map_right_iff]
      exact (mapM_eq_ok.mp hcs).imp fun g c hc => by rw [hc]; rfl
    refine mapM_unique (fun g _ c' c hc' hc => ?_) hcs' hmap
    have hopt := hcursor g
    obtain ⟨c₀, hc₀, rfl⟩ := map_eq_ok.mp hc
    rw [hc', hc₀] at hopt
    exact Option.some.inj hopt

/-- A version that a query about the past finds has come by then. -/
theorem version_le_of_mem (hpin : q.version = some t) (hcs : db.cursors q = .ok cs)
    (hc : c ∈ cs) : c = .new c.graph c.version (db.namespaces c.graph) ∧ c.version ≤ t := by
  obtain ⟨g, hcursor⟩ := exists_cursor_of_mem hcs hc
  obtain ⟨v, hv, rfl⟩ := cursor_eq_ok.mp hcursor
  have hnew := newestBy_of_resolve (hpin ▸ hv)
  have hfind : ((db.versionsOf g).reverse.find? fun v => v ≤ t) = some v := hnew
  have hle : v ≤ t := by simpa using List.find?_some hfind
  exact ⟨rfl, hle⟩

/-! ## The same answers -/

/-- The names in a query stand for the same terms of a graph in two databases. -/
def KeepsNames (db db' : Database) (graph : String) (q : Query) : Prop :=
  ∀ p ∈ q.patterns, ∀ u ∈ p.terms, u.isVariable = false →
    u.expand (db'.namespaces graph) = u.expand (db.namespaces graph)

instance : Decidable (db.KeepsNames db' graph q) :=
  inferInstanceAs (Decidable (∀ p ∈ q.patterns, ∀ u ∈ p.terms, u.isVariable = false →
    u.expand (db'.namespaces graph) = u.expand (db.namespaces graph)))

/-- Other graphs keep their prefixes. -/
theorem Makes.namespaces (h : db.Makes graph v d held db') (hg : graph ≠ g) :
    db'.namespaces g = db.namespaces g := by
  rw [Database.namespaces, Database.namespaces, h.catalogue, Std.ExtTreeMap.getElem?_alter]
  simp [hg]

/-- The records of an earlier version read the same. -/
theorem Makes.alike (h : db.Makes graph v d held db') (hc : db.Coherent)
    (hearlier : c.version < v) :
    Cursor.Alike (Checksum.ofText c.graph, c.version) db.tables.store.entity
      db'.tables.store.entity := by
  have hplace : (Checksum.ofText c.graph, c.version) ≠ (Checksum.ofText graph, v) := by
    intro heq
    exact UInt64.lt_irrefl v ((Prod.mk.inj heq).2 ▸ hearlier)
  refine ⟨hc.closed _, fun k hk => (Store.entity_of_record ?_).symm⟩
  exact h.stores.record (hk ▸ hplace)

/-- The names in a query have the same keys in an earlier version. -/
theorem Makes.nameOf_renew (h : db.Makes graph v d held db')
    (hnew : c = .new c.graph c.version (db.namespaces c.graph))
    (hnames : c.graph = graph → db.KeepsNames db' graph q) :
    ∀ p ∈ q.patterns, ∀ u ∈ p.terms, u.isVariable = false →
      (db'.renew c).nameOf u = c.nameOf u := by
  intro p hp u hu hv
  have hexpand : u.expand (db'.namespaces c.graph) = u.expand (db.namespaces c.graph) := by
    by_cases hg : c.graph = graph
    · rw [hg]
      exact hnames hg p hp u hu hv
    · rw [h.namespaces (Ne.symm hg)]
  have hname : (db'.renew c).nameOf u =
      Key.ofUri c.graph (u.expand (db'.namespaces c.graph)) c.version := rfl
  rw [hname, hexpand, hnew]
  rfl

/-- The response with the rows of an earlier version is the same. -/
theorem Makes.rowsIn_unique (h : db.Makes graph v d held db') (hc : db.Coherent)
    (hearlier : c.version < v) (hnew : c = .new c.graph c.version (db.namespaces c.graph))
    (hnames : c.graph = graph → db.KeepsNames db' graph q)
    (hr : rowsIn db.tables q c = .ok r) (hr' : rowsIn db'.tables q (db'.renew c) = .ok r') :
    r = r' := by
  obtain ⟨c₁, rows, hrun, hrows, rfl⟩ := rowsIn_eq_ok.mp hr
  obtain ⟨c₁', rows', hrun', hrows', rfl⟩ := rowsIn_eq_ok.mp hr'
  have hsource : c.source db.tables = db.tables.store.entity := by
    rw [hnew]
    exact Tables.source_new
  have hsource' : (db'.renew c).source db'.tables = db'.tables.store.entity := Tables.source_new
  have halike : Cursor.Alike (Checksum.ofText c.graph, c.version) (c.source db.tables)
      ((db'.renew c).source db'.tables) := by
    rw [hsource, hsource']
    exact h.alike hc hearlier
  obtain ⟨hrel, hversion, hversion'⟩ := Cursor.execute_alike halike
    (fun u k hk => hc.sound.keyFor_eq hk) (fun u k hk => h.stores.sound.keyFor_eq hk)
    (h.nameOf_renew hnew hnames) hrun hrun'
  have hkeys : c₁.keyRows q.select = c₁'.keyRows q.select := by
    rw [Cursor.keyRows, Cursor.keyRows, hrel]
  have heq : rows = rows' := by
    rw [Cursor.termRows, ← hkeys] at hrows'
    refine mapM_unique (fun keys _ row row' hrow hrow' => ?_) hrows hrows'
    exact mapM_unique (fun k _ u u' hu hu' => h.stores.keeps.term_unique hu hu') hrow hrow'
  rw [heq, hversion, hversion']
  rfl

/-- An insertion does not change the answer to a query about a time before the version it
makes, if the names in the query stand for the same terms of the graph. -/
theorem select_insert_later (hr : Reached clock db) (hfit : db.Fits graph d)
    (hpin : q.version = some t) (hins : db.insert now graph d = (.ok v, db')) (hlater : t < v)
    (hnames : ∀ cs, db.cursors q = .ok cs → ∀ c ∈ cs, c.graph = graph →
      db.KeepsNames db' graph q)
    (h : db.select q = .ok r) (h' : db'.select q = .ok r') : r = r' := by
  have hc := hr.coherent
  obtain ⟨-, held, -, hmakes⟩ := insert_ok hc.sound hfit hins
  obtain ⟨cs, rs, hcs, hrs, rfl⟩ := select_eq_ok.mp h
  obtain ⟨cs', rs', hcs', hrs', rfl⟩ := select_eq_ok.mp h'
  obtain rfl := hmakes.cursors hpin hlater hcs hcs'
  rw [List.mapM_map] at hrs'
  have heq : rs = rs' := by
    refine mapM_unique (fun c hmem s s' hs hs' => ?_) hrs hrs'
    obtain ⟨hnew, hle⟩ := version_le_of_mem hpin hcs hmem
    exact hmakes.rowsIn_unique hc (UInt64.lt_of_le_of_lt hle hlater) hnew (hnames cs hcs c hmem)
      hs hs'
  rw [heq]

/-- What the start of the chain led to at time one. -/
def fromStartThen : Query := { Tables.fromStart with version := some 1 }

theorem select_insert_later_closing :
    ∃ r r', chained.select fromStartThen = .ok r ∧ r.count = 2 ∧
      (chained.insert 2 "g" closing).2.select fromStartThen = .ok r' ∧ r = r' := by
  have hok : (chained.insert 2 "g" closing).1 = .ok 2 := eq_ok_of_toOption (by decide +kernel)
  have hfits : chained.Fits "g" closing := by decide +kernel
  have hnames : chained.KeepsNames (chained.insert 2 "g" closing).2 "g" fromStartThen := by
    decide +kernel
  have hrow : chained.select fromStartThen =
      .ok ⟨["?x"], [[⟨"", "c"⟩], [⟨"", "b"⟩]], 2, 1⟩ := eq_ok_of_toOption (by decide +kernel)
  have hrow' : (chained.insert 2 "g" closing).2.select fromStartThen =
      .ok ⟨["?x"], [[⟨"", "c"⟩], [⟨"", "b"⟩]], 2, 1⟩ := eq_ok_of_toOption (by decide +kernel)
  exact ⟨_, _, hrow, rfl, hrow', select_insert_later reached_chained hfits rfl
    (Prod.ext hok rfl) (by decide) (fun _ _ _ _ _ => hnames) hrow hrow'⟩

/-- A statement about a name of the namespace that a prefix stands for. -/
def declared (ns : String) : Dataset :=
  (Dataset.ofTriples [⟨⟨ns, "a"⟩, ⟨ns, "p"⟩, ⟨ns, "b"⟩⟩]).addNamespace "e" ns

/-- The database with such a statement, inserted at time one. -/
def prefixed : Database := (Database.empty.insert 1 "g" (declared "http://one")).2

/-- What a name of the prefix was linked to at time one. -/
def prefixedThen : Query where
  select := ["?o"]
  graphs := ["g"]
  version := some 1
  patterns := [⟨⟨"e", "a"⟩, [⟨⟨"e", "p"⟩, .single⟩], ⟨"", "?o"⟩⟩]

/-- A later insertion can change what a query says about the past. -/
theorem past_changes :
    ¬ ∀ (clock : List UInt64) (db db' : Database) (graph g : String) (now t v w : UInt64)
      (d : Dataset) (q : Query) (r r' : Response), Reached clock db → db.Fits graph d →
        q.graphs = [g] → q.version = some t → db.resolve g (some t) = .ok w →
          db.insert now graph d = (.ok v, db') → t < v → db.select q = .ok r →
            db'.select q = .ok r' → r = r' := by
  intro hall
  have hreached : Reached [1] prefixed := .insert 1 "g" _ .empty (by decide +kernel)
  have hfits : prefixed.Fits "g" (declared "http://two") := by decide +kernel
  have hresolve : prefixed.resolve "g" (some 1) = .ok 1 := eq_ok_of_toOption (by decide +kernel)
  have hok : (prefixed.insert 2 "g" (declared "http://two")).1 = .ok 2 :=
    eq_ok_of_toOption (by decide +kernel)
  have hbefore : prefixed.select prefixedThen =
      .ok ⟨["?o"], [[⟨"http://one", "b"⟩]], 1, 1⟩ := eq_ok_of_toOption (by decide +kernel)
  have hafter : (prefixed.insert 2 "g" (declared "http://two")).2.select prefixedThen =
      .ok ⟨["?o"], [], 0, 1⟩ := eq_ok_of_toOption (by decide +kernel)
  have hins : prefixed.insert 2 "g" (declared "http://two") =
      (.ok 2, (prefixed.insert 2 "g" (declared "http://two")).2) := by rw [← hok]
  have heq := hall [1] prefixed _ "g" "g" 2 1 2 1 _ prefixedThen _ _ hreached hfits rfl rfl
    hresolve hins (by decide) hbefore hafter
  cases heq

end Database

end TripleStore
