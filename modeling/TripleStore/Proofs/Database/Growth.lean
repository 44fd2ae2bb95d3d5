import TripleStore.Proofs.Database.Legible
import TripleStore.Proofs.Database.TimeTravel
import TripleStore.Proofs.Inference
import TripleStore.Proofs.Query.Grown

/-!
# Answers that grow

As long as the clock moves forward, an insertion that declares no prefixes takes
no row from the answer to a query about the latest versions.  The graph inserted
into is looked at in its new version, which holds what the graph held before.  All
other graphs are looked at in the version in which they were before.
-/

namespace TripleStore

namespace Database

variable {db db' : Database} {graph g : String} {now v w w' : UInt64} {d : Dataset}
  {held ts : List Triple} {c : Cursor} {cs cs' : List Cursor} {q : Query} {r r' : Response}
  {clock : List UInt64}

/-! ## The cursors of a query about the latest versions -/

/-- Without new prefixes names stand for the same terms. -/
theorem Makes.namespaces_of_empty (h : db.Makes graph v d held db') (hnone : d.namespaces = ∅)
    (g : String) : db'.namespaces g = db.namespaces g := by
  by_cases hg : graph = g
  · subst hg
    rw [Database.namespaces, Database.namespaces, h.catalogue, Std.ExtTreeMap.getElem?_alter]
    simp only [Std.LawfulEqOrd.compare_eq_iff_eq, if_true, GraphInfo.addVersion, hnone]
    cases db.catalogue[graph]? with
    | none => rfl
    | some info => rfl
  · exact h.namespaces hg

/-- A graph keeps having a latest version. -/
theorem Makes.exists_newest (h : db.Makes graph v d held db')
    (hw : newestBy none (db.versionsOf g) = some w) :
    newestBy none (db'.versionsOf g) = some (if graph = g then v else w) := by
  rw [h.versionsOf]
  split
  · exact List.getLast?_concat
  · exact hw

theorem cursor_of_newest (h : newestBy none (db.versionsOf g) = some w) :
    db.cursor g none = .ok (.new g w (db.namespaces g)) := by
  have hresolve : db.resolve g none = .ok w := by
    refine eq_ok_of_toOption ?_
    rw [toOption_resolve, h]
  exact cursor_eq_ok.mpr ⟨w, hresolve, rfl⟩

/-- A cursor of a query has one after the insertion, on the same graph. -/
theorem Makes.exists_cursor (h : db.Makes graph v d held db') (hpin : q.version = none)
    (hcs : db.cursors q = .ok cs) (hcs' : db'.cursors q = .ok cs') (hc : c ∈ cs) :
    ∃ g w, newestBy none (db.versionsOf g) = some w ∧ c = .new g w (db.namespaces g) ∧
      Cursor.new g (if graph = g then v else w) (db'.namespaces g) ∈ cs' := by
  have hnewest : ∀ g, db.cursor g none = .ok c →
      ∃ w, newestBy none (db.versionsOf g) = some w ∧ c = .new g w (db.namespaces g) ∧
        db'.cursor g none = .ok (.new g (if graph = g then v else w) (db'.namespaces g)) := by
    intro g hcursor
    obtain ⟨w, hw, rfl⟩ := cursor_eq_ok.mp hcursor
    have hw := newestBy_of_resolve hw
    exact ⟨w, hw, rfl, cursor_of_newest (h.exists_newest hw)⟩
  rw [Database.cursors, hpin] at hcs hcs'
  cases hall : q.wantsAllGraphs with
  | true =>
    rw [hall, if_pos rfl] at hcs hcs'
    cases hcs
    cases hcs'
    obtain ⟨g, hg, hcursor⟩ := List.mem_filterMap.mp hc
    obtain ⟨w, hw, hnew, hcursor'⟩ := hnewest g (eq_ok_of_toOption hcursor)
    have hg' : g ∈ db'.graphs := by
      rw [← h.filter_graphs] at hg
      exact (List.mem_filter.mp hg).1
    exact ⟨g, w, hw, hnew, List.mem_filterMap.mpr ⟨g, hg', by rw [hcursor']; rfl⟩⟩
  | false =>
    rw [hall, if_neg Bool.false_ne_true] at hcs hcs'
    obtain ⟨g, hg, hcursor⟩ := (mem_of_mapM hcs).mp hc
    obtain ⟨w, hw, hnew, hcursor'⟩ := hnewest g hcursor
    exact ⟨g, w, hw, hnew, (mem_of_mapM hcs').mpr ⟨g, hg, hcursor'⟩⟩

/-! ## The statements of the latest versions -/

/-- If the clock moves forward, the latest version of a graph holds what it held before. -/
theorem Makes.holds_more (h : db.Makes graph now d held db') (hr : Reached clock db)
    (hclock : (now :: clock).Pairwise (· > ·)) (hheld : db.currentTriples graph = .ok held)
    (hw : newestBy none (db.versionsOf g) = some w) :
    ∃ ts ts', db.tables.Holds g w ts ∧
      db'.tables.Holds g (if graph = g then now else w) ts' ∧ ∀ tr ∈ ts, tr ∈ ts' := by
  have hc := hr.coherent
  have hlt := hr.lt_of_forward hclock
  have hmem : w ∈ db.versionsOf g := mem_of_newestBy hw
  obtain ⟨ts, hts⟩ := hc.holds g w hmem (hr.unshared (List.pairwise_cons.mp hclock).2 g w hmem)
  refine ⟨ts, if graph = g then Inference.close (held ++ d.triples) else ts, hts, ?_⟩
  by_cases hg : graph = g
  · subst hg
    have hlatest : db.latest? graph = some w := latest?_eq.trans hw
    rw [currentTriples, hlatest] at hheld
    obtain ⟨got, hgot, hiff⟩ := Tables.triplesAt_spec hts
    cases hheld.symm.trans hgot
    simp only [if_true]
    refine ⟨h.stores.holds (hc.lacks _ fun g' u hu heq => ?_), fun tr htr => ?_⟩
    · exact UInt64.lt_irrefl now ((Prod.mk.inj heq).2 ▸ hlt g' u hu)
    · exact Inference.mem_close_of_mem (List.mem_append_left _ ((hiff tr).mpr htr))
  · simp only [if_neg hg]
    refine ⟨hts.mono h.stores.sound h.stores.keeps fun k hk => h.stores.record ?_, fun _ h => h⟩
    intro heq
    have hversion : w = now := congrArg Prod.snd (hk.symm.trans heq)
    exact UInt64.lt_irrefl now (hversion ▸ hlt g w hmem)

/-! ## The rows of the latest versions -/

/-- A term is known by the name of its key. -/
theorem term_atVersion {t t' : Dictionary} (hext : t'.Extends t) {k : Key} {u : Uri}
    (hu : t.term k = .ok u) : t'.term (k.atVersion v) = .ok u :=
  Dictionary.term_eq_ok.mpr (hext k.name u (Dictionary.term_eq_ok.mp hu))

/-- A row of the latest version of a graph is one after the insertion. -/
theorem Makes.mem_rows_of_mem (h : db.Makes graph now d held db') (hr : Reached clock db)
    (hclock : (now :: clock).Pairwise (· > ·)) (hheld : db.currentTriples graph = .ok held)
    (hnone : d.namespaces = ∅) (hw : newestBy none (db.versionsOf g) = some w)
    (hw' : w' = if graph = g then now else w)
    (hs : rowsIn db.tables q (.new g w (db.namespaces g)) = .ok r)
    (hs' : rowsIn db'.tables q (.new g w' (db'.namespaces g)) = .ok r') {row : List Uri}
    (hrow : row ∈ r.rows) : row ∈ r'.rows := by
  obtain ⟨c, rows, hrun, hrows, rfl⟩ := rowsIn_eq_ok.mp hs
  obtain ⟨c', rows', hrun', hrows', rfl⟩ := rowsIn_eq_ok.mp hs'
  obtain ⟨ts, ts', hts, hts', hmore⟩ := h.holds_more hr hclock hheld hw
  rw [← hw'] at hts'
  have hle : w ≤ w' := by
    subst hw'
    split
    · exact UInt64.le_of_lt (hr.lt_of_forward hclock g w (mem_of_newestBy hw))
    · exact UInt64.le_refl w
  obtain ⟨f, hf, hbound, hterms⟩ := (mem_termRows hrows).mp hrow
  have hfaithful : (Cursor.new g w (db.namespaces g)).Faithful db.tables := Cursor.faithful_new
  have hfaithful' : (Cursor.new g w' (db'.namespaces g)).Faithful db'.tables :=
    Cursor.faithful_new
  obtain ⟨f', hf', hsame⟩ := Cursor.has_of_execute hts hts' hfaithful hfaithful' rfl
    (h.namespaces_of_empty hnone g) hle hmore hrun hrun' hf
  refine (mem_termRows hrows').mpr ⟨f', hf', fun v hv => (hsame v (hbound v hv)).1, ?_⟩
  have hkeys : q.select.map f' = (q.select.map f).map fun k => k.atVersion w' := by
    rw [List.map_map]
    exact List.map_congr_left fun v hv => (hsame v (hbound v hv)).2
  rw [hkeys, mapM_eq_ok, List.forall₂_map_left_iff]
  exact (mapM_eq_ok.mp hterms).imp fun _ _ => term_atVersion h.stores.keeps

/-- If the clock moves forward, an insertion without prefixes takes no row from the answer to a
query about the latest versions. -/
theorem select_grows (hr : Reached clock db) (hclock : (now :: clock).Pairwise (· > ·))
    (hfit : db.Fits graph d) (hnone : d.namespaces = ∅) (hpin : q.version = none)
    (hins : db.insert now graph d = (.ok v, db')) (h : db.select q = .ok r)
    (h' : db'.select q = .ok r') : ∀ row ∈ r.rows, row ∈ r'.rows := by
  obtain ⟨hv, held, hheld, hmakes⟩ := insert_ok hr.coherent.sound hfit hins
  rw [nextVersion_of_lt (hr.lt_of_forward hclock graph)] at hv
  subst hv
  obtain ⟨cs, rs, hcs, -, -⟩ := select_eq_ok.mp h
  obtain ⟨cs', rs', hcs', hrs', -⟩ := select_eq_ok.mp h'
  intro row hrow
  obtain ⟨c, hc, s, hs, hrow⟩ := (mem_rows hcs h).mp hrow
  obtain ⟨g, w, hw, rfl, hc'⟩ := hmakes.exists_cursor hpin hcs hcs' hc
  obtain ⟨s', -, hs'⟩ := exists_of_mapM hrs' hc'
  exact (mem_rows hcs' h').mpr
    ⟨_, hc', s', hs', hmakes.mem_rows_of_mem hr hclock hheld hnone hw rfl hs hs' hrow⟩

/-- Whoever a path starts from of which nothing has to be taken. -/
def perhapsLinked : Query where
  select := ["?s"]
  graphs := ["g"]
  version := none
  patterns := [⟨⟨"", "?s"⟩, [⟨⟨"", "p"⟩, .zeroOne⟩], ⟨"", "?o"⟩⟩]

theorem select_grows_closing :
    ∃ r r', chained.select perhapsLinked = .ok r ∧ r.count = 2 ∧
      (chained.insert 2 "g" closing).2.select perhapsLinked = .ok r' ∧ r'.count = 3 ∧
        ∀ row ∈ r.rows, row ∈ r'.rows := by
  have hok : (chained.insert 2 "g" closing).1 = .ok 2 := eq_ok_of_toOption (by decide +kernel)
  have hfits : chained.Fits "g" closing := by decide +kernel
  have hclock : [(2 : UInt64), 1].Pairwise (· > ·) := by decide
  have hrow : chained.select perhapsLinked =
      .ok ⟨["?s"], [[⟨"", "b"⟩], [⟨"", "a"⟩]], 2, 1⟩ := eq_ok_of_toOption (by decide +kernel)
  have hrow' : (chained.insert 2 "g" closing).2.select perhapsLinked =
      .ok ⟨["?s"], [[⟨"", "c"⟩], [⟨"", "b"⟩], [⟨"", "a"⟩]], 3, 2⟩ :=
    eq_ok_of_toOption (by decide +kernel)
  exact ⟨_, _, hrow, rfl, hrow', rfl,
    select_grows reached_chained hclock hfits rfl rfl (Prod.ext hok rfl) hrow hrow'⟩

end Database

end TripleStore
