import TripleStore.Proofs.Database.Answer
import TripleStore.Proofs.Database.Legible
import TripleStore.Proofs.Query.Supplied

/-!
# Counting

A query is counted by the keys that rows bind and answered with the terms of these
keys.  The two agree, as every key that is bound has a term and different keys of
one version have different terms.

The first holds as bound keys come from entities.  Every entity of a database that
insertions lead to is kept under its own key, which has a term, and so have the
keys it holds.  The second holds as a term has one checksum.
-/

namespace TripleStore

/-! ## Entities under their own keys -/

namespace Tables

variable {t t' : Tables} {graph : String} {version : UInt64} {ts : List Triple}

/-- Every entity is kept under its own key. -/
def Keyed (t : Tables) : Prop := ∀ k e, t.store.entity k = .ok e → e.key = k

theorem keyed_empty : Tables.Keyed default := fun _ _ h => nomatch h

/-- Storing a version keeps entities under their own keys. -/
theorem Stores.keyed (h : t.Stores graph version ts t') (ht : t.Keyed) : t'.Keyed := by
  intro k e he
  by_cases hn : IsNode (statementsIn graph version ts) k
  · obtain ⟨e', he', hkey, -⟩ := h.presents.present k hn
    cases he.symm.trans he'
    exact hkey
  · exact ht k e ((Store.entity_of_record (h.other k hn)).symm.trans he)

/-- Of the keys of a place those that have terms are supplied. -/
theorem Legible.supplies (h : t.Legible) (hkeyed : t.Keyed) (hclosed : t.store.Closed)
    (here : UInt32 × UInt64) : Source.Supplies (fun k => k.place = here)
      (fun k => k.place = here ∧ t.dictionary.Names k) t.store.entity where
  ask _ hk := hk.1
  entity k e hk he := by
    obtain ⟨r, hr, hre⟩ := bind_eq_ok.mp he
    obtain ⟨e', he', hname, hnames⟩ := h k r hr
    cases hre.symm.trans he'
    have hplaces := hclosed here k e hk he
    refine ⟨⟨hk, hkeyed k e he ▸ hname⟩, fun d x hx => ?_, fun x hx => ?_⟩
    · exact ⟨⟨(hplaces.edges d x hx).1, (hnames.edges d x hx).1⟩,
        (hplaces.edges d x hx).2, (hnames.edges d x hx).2⟩
    · exact ⟨⟨(hplaces.endpoints x hx).1, (hnames.endpoints x hx).1⟩,
        (hplaces.endpoints x hx).2, (hnames.endpoints x hx).2⟩

end Tables

/-! ## Terms of rows -/

/-- A key of a place is known by its term. -/
theorem Dictionary.Sound.eq_of_term {d : Dictionary} (h : d.Sound) {k l : Key} {u : Uri}
    (hplace : k.place = l.place) (hk : d.term k = .ok u) (hl : d.term l = .ok u) : k = l := by
  obtain ⟨hgraph, hversion⟩ := Prod.mk.inj hplace
  have hname : k.name = l.name :=
    (h.checksum k.name u (term_eq_ok.mp hk)).symm.trans (h.checksum l.name u (term_eq_ok.mp hl))
  exact Key.ext hgraph hname hversion

/-- Rows that bind keys of a place with terms have terms, as many different ones. -/
theorem Cursor.exists_termRows {t : Tables} {c : Cursor} {here : UInt32 × UInt64}
    (hd : t.dictionary.Sound)
    (hw : c.relation.Within fun k => k.place = here ∧ t.dictionary.Names k)
    (vars : List String) : ∃ rows, c.termRows t vars = .ok rows ∧ rows.Nodup ∧
      rows.length = (c.keyRows vars).length := by
  have hgood : ∀ keys ∈ c.keyRows vars, ∀ k ∈ keys, k.place = here ∧ t.dictionary.Names k := by
    intro keys hkeys k hk
    obtain ⟨f, hf, hbound, rfl⟩ := Relation.mem_project.mp hkeys
    obtain ⟨v, hv, rfl⟩ := List.mem_map.mp hk
    exact hw f hf v (hbound v hv)
  obtain ⟨rows, hrows⟩ : ∃ rows, c.termRows t vars = .ok rows :=
    exists_mapM fun keys hkeys => exists_mapM fun k hk => (hgood keys hkeys k hk).2
  refine ⟨rows, hrows, ?_, (mapM_eq_ok.mp hrows).length_eq.symm⟩
  refine nodup_of_mapM (Relation.nodup_project _ _) (fun keys hkeys keys' hkeys' row h h' => ?_)
    hrows
  refine eq_of_mapM (fun k hk l hl u hu hu' => ?_) h h'
  exact hd.eq_of_term ((hgood keys hkeys k hk).1.trans (hgood keys' hkeys' l hl).1.symm) hu hu'

/-! ## Counting and selecting -/

namespace Database

variable {db : Database} {clock : List UInt64} {q : Query} {c c' : Cursor} {cs : List Cursor}

theorem Reached.keyed (h : Reached clock db) : db.tables.Keyed := by
  induction h with
  | empty => exact Tables.keyed_empty
  | insert now graph d hreached hfit ih =>
    rcases insert_cases now hreached.coherent.sound hfit with hsame | ⟨held, -, hmakes⟩
    · exact hsame.symm ▸ ih
    · exact hmakes.stores.keyed ih

/-- The rows of a query have terms, as many different ones. -/
theorem Reached.exists_termRows (hr : Reached clock db) (hcs : db.cursors q = .ok cs)
    (hc : c ∈ cs) (h : executed db.tables q c = .ok c') :
    ∃ rows, c'.termRows db.tables q.select = .ok rows ∧ rows.Nodup ∧
      rows.length = (c'.keyRows q.select).length := by
  have hcoh := hr.coherent
  have hsource : c.source db.tables = db.tables.store.entity := by
    obtain ⟨graph, hcursor⟩ := exists_cursor_of_mem hcs hc
    obtain ⟨v, -, rfl⟩ := cursor_eq_ok.mp hcursor
    exact Tables.source_new
  have hsupplies := hr.legible.supplies hr.keyed hcoh.closed (Checksum.ofText c.graph, c.version)
  rw [← hsource] at hsupplies
  have hwithin : c'.relation.Within _ :=
    Cursor.execute_within hsupplies (fun u k hk => hcoh.sound.keyFor_eq hk) (executed_eq_ok.mp h)
  exact Cursor.exists_termRows hcoh.sound hwithin q.select

/-- A response without its rows. -/
def counted (r : Response) : Response := { r with rows := [] }

/-- A graph is counted as it is answered, without the rows. -/
theorem Reached.countIn_eq (hr : Reached clock db) (hcs : db.cursors q = .ok cs) (hc : c ∈ cs) :
    countIn db.tables q c = (rowsIn db.tables q c).map counted := by
  rw [countIn, rowsIn]
  cases h : executed db.tables q c with
  | error f => rfl
  | ok c' =>
    obtain ⟨rows, hrows, -, hlen⟩ := hr.exists_termRows hcs hc h
    simp only [bind, Except.bind, hrows, pure, Except.pure, Except.map, counted, hlen]

theorem foldl_together_counted (rs : List Response) (r : Response) :
    (rs.map counted).foldl together (counted r) = counted (rs.foldl together r) := by
  induction rs generalizing r with
  | nil => rfl
  | cons s rs ih => exact ih (together r s)

theorem count_foldl_together {rs : List Response} {r : Response} (hr : r.count = r.rows.length)
    (hrs : ∀ s ∈ rs, s.count = s.rows.length) :
    (rs.foldl together r).count = (rs.foldl together r).rows.length := by
  induction rs generalizing r with
  | nil => exact hr
  | cons s rs ih =>
    obtain ⟨hs, hrs⟩ := List.forall_mem_cons.mp hrs
    refine ih ?_ hrs
    rw [together, List.length_append, hr, hs]

/-- Counting and selecting fail alike or agree, and the rows of each graph are as many as the
keys that were counted. -/
theorem count_eq_select (hr : Reached clock db) (q : Query) :
    ((∃ f, db.select q = .error f ∧ db.count q = .error f) ∨
      ∃ r, db.select q = .ok r ∧ db.count q = .ok ⟨r.vars, [], r.count, r.version⟩ ∧
        r.count = r.rows.length) ∧
    ∀ cs, db.cursors q = .ok cs → ∀ c ∈ cs, ∀ c', executed db.tables q c = .ok c' →
      (c'.keyRows q.select).Nodup ∧ ∃ rows, c'.termRows db.tables q.select = .ok rows ∧
        rows.Nodup ∧ rows.length = (c'.keyRows q.select).length := by
  refine ⟨?_, fun cs hcs c hc c' h =>
    ⟨Relation.nodup_project _ _, hr.exists_termRows hcs hc h⟩⟩
  rw [select, count, gather, gather]
  cases hcs : db.cursors q with
  | error f => exact .inl ⟨f, rfl, rfl⟩
  | ok cs =>
    have hmap : cs.mapM (countIn db.tables q) =
        (cs.mapM (rowsIn db.tables q)).map (List.map counted) :=
      mapM_eq_map fun c hc => hr.countIn_eq hcs hc
    cases hrs : cs.mapM (rowsIn db.tables q) with
    | error f =>
      refine .inl ⟨f, ?_, ?_⟩
      · simp only [bind, Except.bind, hrs]
      · simp only [bind, Except.bind, hmap, hrs, Except.map]
    | ok rs =>
      have hcount : ∀ s ∈ rs, s.count = s.rows.length := by
        intro s hs
        obtain ⟨c, -, hcs⟩ := (mem_of_mapM hrs).mp hs
        obtain ⟨c', rows, -, -, rfl⟩ := rowsIn_eq_ok.mp hcs
        rfl
      refine .inr ⟨rs.foldl together ⟨q.select, [], 0, 0⟩, ?_, ?_, count_foldl_together rfl hcount⟩
      · simp only [bind, Except.bind, hrs, pure, Except.pure]
      · have hfold := foldl_together_counted rs ⟨q.select, [], 0, 0⟩
        simp only [bind, Except.bind, hmap, hrs, Except.map, pure, Except.pure]
        exact congrArg Except.ok hfold

theorem count_eq_select_chained :
    ∃ r, chained.select Tables.fromStart = .ok r ∧ r.rows.length = 2 ∧
      chained.count Tables.fromStart = .ok ⟨["?x"], [], 2, 1⟩ := by
  have hrow : chained.select Tables.fromStart =
      .ok ⟨["?x"], [[⟨"", "c"⟩], [⟨"", "b"⟩]], 2, 1⟩ := eq_ok_of_toOption (by decide +kernel)
  refine ⟨_, hrow, rfl, ?_⟩
  rcases (count_eq_select reached_chained Tables.fromStart).1 with ⟨f, hf, -⟩ | ⟨r, hr, hcount, -⟩
  · cases hrow.symm.trans hf
  · cases hrow.symm.trans hr
    exact hcount

end Database

end TripleStore
