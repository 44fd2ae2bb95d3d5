import TripleStore.Database.Answer
import TripleStore.Proofs.Database.Insert

/-!
# What a database answers

A response lists the rows of each version that a query is about, one version
after the other.  In a version that shares its place with no other one the rows
are what its statements say, so they do not depend on the order in which the
patterns are written, as long as paths between two variables take a hop.

Without this the order does matter.  A path of which nothing has to be taken
starts at subjects of its predicates if neither end is bound before, but at any
entity that another pattern has found.
-/

namespace TripleStore

namespace Database

variable {db : Database} {graph : String} {time : Option UInt64} {v : UInt64} {c c' : Cursor}
  {cs : List Cursor} {q : Query} {r r' : Response} {clock : List UInt64}

/-! ## The versions of a query -/

/-- A time is resolved to the newest version that has come by then, if there is one. -/
theorem toOption_resolve : (db.resolve graph time).toOption =
    newestBy time (db.versionsOf graph) := by
  rw [resolve, Database.versions, versionsOf]
  cases db.catalogue[graph]? with
  | none => cases time <;> rfl
  | some info =>
    cases hv : newestBy time info.versions with
    | none =>
      simp only [bind, Except.bind, hv]
      exact hv.symm
    | some v =>
      simp only [bind, Except.bind, hv]
      exact hv.symm

theorem mem_of_newestBy {vs : List UInt64} (h : newestBy time vs = some v) : v ∈ vs := by
  cases time with
  | none => exact List.mem_of_getLast? h
  | some t => exact List.mem_reverse.mp (List.mem_of_find?_eq_some h)

theorem newestBy_of_resolve (h : db.resolve graph time = .ok v) :
    newestBy time (db.versionsOf graph) = some v := by
  rw [← toOption_resolve, h]
  rfl

theorem mem_versionsOf_of_resolve (h : db.resolve graph time = .ok v) :
    v ∈ db.versionsOf graph := mem_of_newestBy (newestBy_of_resolve h)

theorem cursor_eq_ok : db.cursor graph time = .ok c ↔
    ∃ v, db.resolve graph time = .ok v ∧ c = .new graph v (db.namespaces graph) := by
  rw [cursor, bind_eq_ok]
  refine exists_congr fun v => and_congr_right fun _ => ?_
  exact ⟨fun h => (Except.ok.inj h).symm, fun h => h ▸ rfl⟩

/-- A cursor of a query is one on a version of a graph. -/
theorem exists_cursor_of_mem (h : db.cursors q = .ok cs) (hc : c ∈ cs) :
    ∃ graph, db.cursor graph q.version = .ok c := by
  rw [cursors] at h
  split at h
  · cases h
    obtain ⟨g, -, hg⟩ := List.mem_filterMap.mp hc
    exact ⟨g, eq_ok_of_toOption hg⟩
  · obtain ⟨g, -, hg⟩ := (mem_of_mapM h).mp hc
    exact ⟨g, hg⟩

/-- If the clock moves forward the versions of a query share nothing. -/
theorem Reached.unshared_of_mem (hr : Reached clock db) (hclock : clock.Pairwise (· > ·))
    (h : db.cursors q = .ok cs) (hc : c ∈ cs) : db.Unshared c.graph c.version := by
  obtain ⟨graph, hcursor⟩ := exists_cursor_of_mem h hc
  obtain ⟨v, hv, rfl⟩ := cursor_eq_ok.mp hcursor
  exact hr.unshared hclock graph v (mem_versionsOf_of_resolve hv)

/-! ## Responses -/

theorem executed_eq_ok {t : Tables} :
    executed t q c = .ok c' ↔ c.execute t q = (.ok (), c') := by
  rw [executed]
  obtain ⟨outcome, c'', h⟩ : ∃ outcome c'', c.execute t q = (outcome, c'') := ⟨_, _, rfl⟩
  rw [h]
  cases outcome with
  | error f => simp
  | ok a => simp

theorem rowsIn_eq_ok {t : Tables} : rowsIn t q c = .ok r ↔
    ∃ c' rows, c.execute t q = (.ok (), c') ∧ c'.termRows t q.select = .ok rows ∧
      r = ⟨q.select, rows, rows.length, c'.version⟩ := by
  rw [rowsIn, bind_eq_ok]
  refine exists_congr fun c' => ?_
  rw [executed_eq_ok, bind_eq_ok, exists_and_left]
  refine and_congr_right fun _ => exists_congr fun rows => and_congr_right fun _ => ?_
  exact ⟨fun h => (Except.ok.inj h).symm, fun h => h ▸ rfl⟩

/-- The rows of a cursor are the terms of the keys that are bound. -/
theorem mem_termRows {t : Tables} {vars : List String} {rows : List (List Uri)}
    (h : c.termRows t vars = .ok rows) {row : List Uri} : row ∈ rows ↔
      ∃ f, c.relation.Has f ∧ (∀ v ∈ vars, f v ≠ Key.empty) ∧
        (vars.map f).mapM t.dictionary.term = .ok row := by
  rw [mem_of_mapM h]
  constructor
  · rintro ⟨keys, hkeys, hrow⟩
    obtain ⟨f, hf, hbound, rfl⟩ := Relation.mem_project.mp hkeys
    exact ⟨f, hf, hbound, hrow⟩
  · rintro ⟨f, hf, hbound, hrow⟩
    exact ⟨_, Relation.mem_project.mpr ⟨f, hf, hbound, rfl⟩, hrow⟩

theorem select_eq_ok : db.select q = .ok r ↔ ∃ cs rs, db.cursors q = .ok cs ∧
    cs.mapM (rowsIn db.tables q) = .ok rs ∧ r = rs.foldl together ⟨q.select, [], 0, 0⟩ := by
  rw [select, gather, bind_eq_ok]
  refine exists_congr fun cs => ?_
  rw [exists_and_left, bind_eq_ok]
  refine and_congr_right fun _ => exists_congr fun rs => and_congr_right fun _ => ?_
  exact ⟨fun h => (Except.ok.inj h).symm, fun h => h ▸ rfl⟩

theorem rows_foldl_together {rs : List Response} :
    (rs.foldl together r).rows = r.rows ++ rs.flatMap Response.rows := by
  induction rs generalizing r with
  | nil => simp
  | cons s rs ih =>
    rw [List.foldl_cons, ih, List.flatMap_cons, ← List.append_assoc]
    rfl

/-- The rows of a response are those of its versions. -/
theorem mem_rows (hcs : db.cursors q = .ok cs) (h : db.select q = .ok r) {row : List Uri} :
    row ∈ r.rows ↔ ∃ c ∈ cs, ∃ s, rowsIn db.tables q c = .ok s ∧ row ∈ s.rows := by
  obtain ⟨cs', rs, hcs', hrs, rfl⟩ := select_eq_ok.mp h
  cases hcs.symm.trans hcs'
  rw [rows_foldl_together, List.nil_append, List.mem_flatMap]
  constructor
  · rintro ⟨s, hs, hrow⟩
    obtain ⟨c, hc, hcs⟩ := (mem_of_mapM hrs).mp hs
    exact ⟨c, hc, s, hcs, hrow⟩
  · rintro ⟨c, hc, s, hcs, hrow⟩
    exact ⟨s, (mem_of_mapM hrs).mpr ⟨c, hc, hcs⟩, hrow⟩

/-! ## The order of patterns -/

/-- What is left in the rows of a version does not depend on the order of patterns. -/
theorem has_perm {t : Tables} {version : UInt64} {ts : List Triple} {ps : List Pattern}
    {c₁ c₂ : Cursor} (ht : t.Holds c.graph version ts) (hversion : c.version = version)
    (hc : c.Faithful t) (hperm : q.patterns.Perm ps) (hhop : ∀ p ∈ q.patterns, p.TakesHop)
    (h₁ : c.execute t q = (.ok (), c₁)) (h₂ : c.execute t { q with patterns := ps } = (.ok (), c₂))
    {f : String → Key} : c₁.relation.Has f ↔ c₂.relation.Has f := by
  subst hversion
  have hs : (c.source t).Shows (Checksum.ofText c.graph, c.version)
      (statementsIn c.graph c.version ts) := hc.source ▸ ht.shows
  have hname : ∀ u k, c.keyOf t u = .ok k → k = c.nameOf u := fun u k hk => ht.sound.keyFor_eq hk
  have hhop' : ∀ p ∈ ps, p.TakesHop := fun p hp => hhop p (hperm.mem_iff.mpr hp)
  rw [Cursor.has_iff_solves hs hname hhop h₁, Cursor.has_iff_solves hs hname hhop' h₂]
  have hvars : ∀ v, v ∈ q.whereVars ↔ v ∈ ({ q with patterns := ps } : Query).whereVars := by
    intro v
    exact (hperm.flatMap_right Pattern.vars).mem_iff
  refine and_congr ?_ ?_
  · exact forall_congr' fun v => iff_congr Iff.rfl (hvars v)
  · exact forall_congr' fun p => imp_congr hperm.mem_iff Iff.rfl

/-- The order in which patterns are written does not matter, if paths between two variables
take a hop and the versions share their places with no others. -/
theorem select_perm (hr : Reached clock db) {ps : List Pattern} (hperm : q.patterns.Perm ps)
    (hhop : ∀ p ∈ q.patterns, p.TakesHop)
    (halone : ∀ cs, db.cursors q = .ok cs → ∀ c ∈ cs, db.Unshared c.graph c.version)
    (h : db.select q = .ok r) (h' : db.select { q with patterns := ps } = .ok r') :
    ∀ row, row ∈ r.rows ↔ row ∈ r'.rows := by
  intro row
  obtain ⟨cs, rs, hcs, hrs, -⟩ := select_eq_ok.mp h
  obtain ⟨cs', rs', hcs', hrs', -⟩ := select_eq_ok.mp h'
  cases hcs.symm.trans hcs'
  rw [mem_rows hcs h, mem_rows hcs' h']
  refine exists_congr fun c => and_congr_right fun hc => ?_
  obtain ⟨graph, hcursor⟩ := exists_cursor_of_mem hcs hc
  obtain ⟨v, hv, rfl⟩ := cursor_eq_ok.mp hcursor
  obtain ⟨ts, hts⟩ := hr.coherent.holds graph v (mem_versionsOf_of_resolve hv) (halone cs hcs _ hc)
  obtain ⟨s, -, hs⟩ := exists_of_mapM hrs hc
  obtain ⟨s', -, hs'⟩ := exists_of_mapM hrs' hc
  obtain ⟨c₁, rows₁, hrun₁, hrows₁, rfl⟩ := rowsIn_eq_ok.mp hs
  obtain ⟨c₂, rows₂, hrun₂, hrows₂, rfl⟩ := rowsIn_eq_ok.mp hs'
  have hhas : ∀ f, c₁.relation.Has f ↔ c₂.relation.Has f :=
    fun f => has_perm hts rfl Cursor.faithful_new hperm hhop hrun₁ hrun₂
  have hsame : row ∈ rows₁ ↔ row ∈ rows₂ := by
    rw [mem_termRows hrows₁, mem_termRows hrows₂]
    exact exists_congr fun f => and_congr (hhas f) Iff.rfl
  rw [hs, hs']
  constructor
  · rintro ⟨s, heq, hrow⟩
    cases heq
    exact ⟨_, rfl, hsame.mp hrow⟩
  · rintro ⟨s, heq, hrow⟩
    cases heq
    exact ⟨_, rfl, hsame.mpr hrow⟩

/-- Whoever leads on from somewhere, and where from. -/
def twoHops : Query where
  select := ["?y"]
  graphs := ["g"]
  version := none
  patterns := [⟨⟨"", "?x"⟩, [⟨⟨"", "p"⟩, .single⟩], ⟨"", "?y"⟩⟩,
    ⟨⟨"", "?y"⟩, [⟨⟨"", "p"⟩, .onePlus⟩], ⟨"", "?z"⟩⟩]

theorem select_perm_twoHops :
    ∃ r r', chained.select twoHops = .ok r ∧
      chained.select { twoHops with patterns := twoHops.patterns.reverse } = .ok r' ∧
      [⟨"", "b"⟩] ∈ r.rows ∧ ∀ row, row ∈ r.rows ↔ row ∈ r'.rows := by
  have hrow : chained.select twoHops = .ok ⟨["?y"], [[⟨"", "b"⟩]], 1, 1⟩ :=
    eq_ok_of_toOption (by decide +kernel)
  have hrow' : chained.select { twoHops with patterns := twoHops.patterns.reverse } =
      .ok ⟨["?y"], [[⟨"", "b"⟩]], 1, 1⟩ := eq_ok_of_toOption (by decide +kernel)
  have hperm : twoHops.patterns.Perm twoHops.patterns.reverse := (List.reverse_perm _).symm
  have hhop : ∀ p ∈ twoHops.patterns, p.TakesHop := by decide
  have halone : ∀ cs, chained.cursors twoHops = .ok cs →
      ∀ c ∈ cs, chained.Unshared c.graph c.version :=
    fun _ hcs _ hc => reached_chained.unshared_of_mem (by decide) hcs hc
  exact ⟨_, _, hrow, hrow', by simp,
    select_perm reached_chained hperm hhop halone hrow hrow'⟩

/-- Two statements that have nothing in common. -/
def apart : Dataset :=
  .ofTriples [⟨⟨"", "a"⟩, ⟨"", "p"⟩, ⟨"", "b"⟩⟩, ⟨⟨"", "c"⟩, ⟨"", "q"⟩, ⟨"", "d"⟩⟩]

/-- A path of which nothing has to be taken, from a subject of another predicate. -/
def skipping : Query where
  select := ["?s"]
  graphs := ["g"]
  version := none
  patterns := [⟨⟨"", "?s"⟩, [⟨⟨"", "p"⟩, .zeroOne⟩], ⟨"", "?o"⟩⟩,
    ⟨⟨"", "?s"⟩, [⟨⟨"", "q"⟩, .single⟩], ⟨"", "?x"⟩⟩]

/-- The order of patterns matters for some query on one graph. -/
theorem order_matters :
    ¬ ∀ (clock : List UInt64) (db : Database) (graph : String) (q : Query) (ps : List Pattern)
      (r r' : Response), Reached clock db → q.graphs = [graph] → q.patterns.Perm ps →
        db.select q = .ok r → db.select { q with patterns := ps } = .ok r' →
          ∀ row, row ∈ r.rows ↔ row ∈ r'.rows := by
  intro hall
  have hreached : Reached [1] (Database.empty.insert 1 "g" apart).2 :=
    .insert 1 "g" apart .empty (by decide +kernel)
  have hfirst : (Database.empty.insert 1 "g" apart).2.select skipping =
      .ok ⟨["?s"], [], 0, 1⟩ := eq_ok_of_toOption (by decide +kernel)
  have hsecond : (Database.empty.insert 1 "g" apart).2.select
      { skipping with patterns := skipping.patterns.reverse } =
        .ok ⟨["?s"], [[⟨"", "c"⟩]], 1, 1⟩ := eq_ok_of_toOption (by decide +kernel)
  have hperm : skipping.patterns.Perm skipping.patterns.reverse := (List.reverse_perm _).symm
  have hrow := hall [1] _ "g" skipping _ _ _ hreached rfl hperm hfirst hsecond [⟨"", "c"⟩]
  exact absurd (hrow.mpr (by simp)) (by simp)

/-- Two graphs whose names have one checksum, at one time. -/
def shared : Database :=
  ((Database.empty.insert 1 "plumless" (.ofTriples [⟨⟨"", "x"⟩, ⟨"", "p"⟩, ⟨"", "y"⟩⟩])).2.insert 1
    "buckeroo" (.ofTriples [⟨⟨"", "y"⟩, ⟨"", "q"⟩, ⟨"", "z"⟩⟩])).2

/-- A statement of the one graph that leads to one of the other. -/
def across : Query where
  select := ["?s"]
  graphs := ["buckeroo"]
  version := none
  patterns := [⟨⟨"", "?s"⟩, [⟨⟨"", "p"⟩, .single⟩], ⟨"", "?o"⟩⟩,
    ⟨⟨"", "?o"⟩, [⟨⟨"", "q"⟩, .single⟩], ⟨"", "?t"⟩⟩]

/-- Taking hops is not enough where graphs share the checksum of their names and a time. -/
theorem order_matters_in_shared_places :
    ¬ ∀ (clock : List UInt64) (db : Database) (graph : String) (q : Query) (ps : List Pattern)
      (r r' : Response), Reached clock db → q.graphs = [graph] → q.patterns.Perm ps →
        (∀ p ∈ q.patterns, p.TakesHop) → db.select q = .ok r →
          db.select { q with patterns := ps } = .ok r' → ∀ row, row ∈ r.rows ↔ row ∈ r'.rows := by
  intro hall
  have hone := Reached.empty.insert 1 "plumless"
    (.ofTriples [⟨⟨"", "x"⟩, ⟨"", "p"⟩, ⟨"", "y"⟩⟩]) (by decide +kernel)
  have hreached : Reached [1, 1] shared := hone.insert 1 "buckeroo" _ (by decide +kernel)
  have hfirst : shared.select across = .ok ⟨["?s"], [[⟨"", "x"⟩]], 1, 1⟩ :=
    eq_ok_of_toOption (by decide +kernel)
  have hsecond : shared.select { across with patterns := across.patterns.reverse } =
      .ok ⟨["?s"], [], 0, 1⟩ := eq_ok_of_toOption (by decide +kernel)
  have hperm : across.patterns.Perm across.patterns.reverse := (List.reverse_perm _).symm
  have hhop : ∀ p ∈ across.patterns, p.TakesHop := by decide
  have hrow := hall [1, 1] _ "buckeroo" across _ _ _ hreached rfl hperm hhop hfirst hsecond
    [⟨"", "x"⟩]
  exact absurd (hrow.mp (by simp)) (by simp)

end Database

end TripleStore
