import TripleStore.Proofs.Query.Solution
import TripleStore.Proofs.Version

/-!
# Answers of a query

The rows of a query on a version of a graph are its solutions.  A solution gives a
node of the version to each variable of the patterns, such that all patterns hold
over the statements of the version.  A row is a solution seen from the selected
variables.  A selected variable that no pattern has leaves no rows at all.

`keyRows_of_compile` puts together what storing, planning and running do: it is
about statements that were compiled and stored, and about any cursor on them,
whether it is new or remembers what it read.
-/

namespace TripleStore

variable {graph : String} {version : UInt64} {ts : List Triple} {ss : List Statement}

/-! ## Assignments that matter -/

namespace Term.Reads

variable {t : Term} {name : Uri → Key} {p : Pattern} {f g : String → Key}

/-- A pattern depends on its variables only. -/
theorem congr (hr : t.Reads name p) (h : ∀ v ∈ p.vars, f v = g v) :
    p.Holds ss name f ↔ p.Holds ss name g := by
  rw [← hr.holds, ← hr.holds]
  exact Term.Holds.congr fun v hv => h v ((hr.vars v).mp hv)

/-- The variables of a pattern that holds are nodes. -/
theorem isNode {here : UInt32 × UInt64} (hr : t.Reads name p) (hname : ∀ u, (name u).place = here)
    (h : p.Holds ss name f) {v : String} (hv : v ∈ p.vars) : IsNode ss (f v) :=
  Term.Holds.isNode (hr.formed here hname) ((hr.holds ss f).mpr h) ((hr.vars v).mpr hv)

end Term.Reads

/-! ## Rows -/

namespace Cursor

variable {t : Tables} {c c' : Cursor} {q : Query}

/-- A row is what a solution gives to the selected variables, all of which are variables of
the patterns. -/
def Answers (c : Cursor) (ss : List Statement) (q : Query) (row : List Key) : Prop :=
  (∀ v ∈ q.select, v ∈ q.whereVars) ∧
    ∃ f : String → Key, (∀ v ∈ q.whereVars, IsNode ss (f v)) ∧ c.Solves ss q f ∧
      row = q.select.map f

/-- The rows of a query that succeeds are its answers. -/
theorem mem_keyRows (hs : (c.source t).Shows (Checksum.ofText c.graph, c.version) ss)
    (hname : ∀ u k, c.keyOf t u = .ok k → k = c.nameOf u) (hpos : c.version ≠ 0)
    (hhop : ∀ p ∈ q.patterns, p.TakesHop) (h : c.execute t q = (.ok (), c')) {row : List Key} :
    row ∈ c'.keyRows q.select ↔ c.Answers ss q row := by
  obtain ⟨ts, -, hpat, -, -⟩ := execute_spec hs hname h
  have hplace : ∀ u, (c.nameOf u).place = (Checksum.ofText c.graph, c.version) := fun _ => rfl
  have hnode : ∀ k, IsNode ss k → k ≠ Key.empty := by
    rintro - hk rfl
    exact hpos (Prod.mk.inj (hs.place _ hk)).2.symm
  rw [keyRows, Relation.mem_project]
  constructor
  · rintro ⟨f, hf, hbound, rfl⟩
    obtain ⟨hbinds, hsolves⟩ := (has_iff_solves hs hname hhop h).mp hf
    refine ⟨fun v hv => (hbinds v).mp (hbound v hv), f, fun v hv => ?_, hsolves, rfl⟩
    obtain ⟨p, hp, hv⟩ := List.mem_flatMap.mp hv
    obtain ⟨t, -, hr⟩ := hpat p hp
    exact hr.isNode hplace (hsolves p hp) hv
  · rintro ⟨hselect, f, hnodes, hsolves, rfl⟩
    -- outside the patterns an assignment may give anything, but rows bind nothing
    obtain ⟨g, hg⟩ : ∃ g : String → Key,
        g = fun v => if v ∈ q.whereVars then f v else Key.empty := ⟨_, rfl⟩
    have hsame : ∀ v ∈ q.whereVars, g v = f v := by
      intro v hv
      rw [hg]
      exact if_pos hv
    have hbinds : Binds g q.whereVars := by
      intro v
      by_cases hv : v ∈ q.whereVars
      · rw [hsame v hv]
        exact iff_of_true (hnode _ (hnodes v hv)) hv
      · rw [hg]
        simp [hv]
    have hsolves' : c.Solves ss q g := by
      intro p hp
      obtain ⟨t, -, hr⟩ := hpat p hp
      refine (hr.congr fun v hv => hsame v ?_).mpr (hsolves p hp)
      exact List.mem_flatMap.mpr ⟨p, hp, hv⟩
    refine ⟨g, (has_iff_solves hs hname hhop h).mpr ⟨hbinds, hsolves'⟩, fun v hv => ?_, ?_⟩
    · exact (hbinds v).mpr (hselect v hv)
    · exact List.map_congr_left fun v hv => (hsame v (hselect v hv)).symm

/-! ## Cursors on stored statements -/

/-- What a cursor remembers is what the tables say. -/
def Faithful (c : Cursor) (t : Tables) : Prop :=
  ∀ (k : Key) (e : Entity), c.cache[k]? = some e → t.store.entity k = .ok e

theorem Faithful.source (h : c.Faithful t) : c.source t = t.store.entity := by
  funext k
  rw [Cursor.source]
  split
  · next e he => exact (h k e he).symm
  · rfl

/-- A cursor that remembers nothing is faithful. -/
theorem faithful_of_cache (h : c.cache = ∅) : c.Faithful t := by
  intro k e he
  simp [h] at he

theorem faithful_new {namespaces : Namespaces} :
    (Cursor.new graph version namespaces).Faithful t := faithful_of_cache rfl

end Cursor

namespace Tables

variable {t t' : Tables} {c c' : Cursor} {q : Query}

/-- The rows of a query are its answers, in whatever version of whatever tables. -/
theorem Holds.mem_keyRows (h : t.Holds graph version ts) (hpos : version ≠ 0)
    (hgraph : c.graph = graph) (hversion : c.version = version) (hc : c.Faithful t)
    (hhop : ∀ p ∈ q.patterns, p.TakesHop) (hrun : c.execute t q = (.ok (), c')) {row : List Key} :
    row ∈ c'.keyRows q.select ↔ c.Answers (statementsIn graph version ts) q row := by
  subst hgraph hversion
  have hs : (c.source t).Shows (Checksum.ofText c.graph, c.version)
      (statementsIn c.graph c.version ts) := hc.source ▸ h.shows
  exact Cursor.mem_keyRows hs (fun u k hk => h.sound.keyFor_eq hk) hpos hhop hrun

/-- Statements whose terms do not collide can be stored as a new version, and a query on it
that succeeds lists its answers, each once. -/
theorem keyRows_of_compile (hd : t.dictionary.Sound)
    (hlack : t.store.Lacks (Checksum.ofText graph, version)) (hts : FitsMemory ts)
    (hpos : version ≠ 0)
    (hcompile : (Adjacency.compile graph version ts t.dictionary).isOk = true) :
    ∃ t', t.addVersion graph version ts = (.ok (), t') ∧
      ∀ (c c' : Cursor) (q : Query), c.graph = graph → c.version = version → c.Faithful t' →
        (∀ p ∈ q.patterns, p.TakesHop) → c.execute t' q = (.ok (), c') →
          (c'.keyRows q.select).Nodup ∧
            ∀ row, row ∈ c'.keyRows q.select ↔ c.Answers (statementsIn graph version ts) q row := by
  cases hc : Adjacency.compile graph version ts t.dictionary with
  | error f =>
    rw [hc] at hcompile
    cases hcompile
  | ok p =>
    obtain ⟨t', hadd, hstores⟩ := addVersion_of_compile hd hts hc
    refine ⟨t', hadd, fun c c' q hgraph hversion hfaithful hhop hrun => ⟨?_, fun row => ?_⟩⟩
    · exact Relation.nodup_project _ _
    · exact (hstores.holds hlack).mem_keyRows hpos hgraph hversion hfaithful hhop hrun

/-- A chain of two statements of one predicate. -/
def chain : List Triple :=
  [⟨⟨"", "a"⟩, ⟨"", "p"⟩, ⟨"", "b"⟩⟩, ⟨⟨"", "b"⟩, ⟨"", "p"⟩, ⟨"", "c"⟩⟩]

/-- What the start of the chain leads to in one hop or more. -/
def fromStart : Query where
  select := ["?x"]
  graphs := ["g"]
  version := none
  patterns := [⟨⟨"", "a"⟩, [⟨⟨"", "p"⟩, .onePlus⟩], ⟨"", "?x"⟩⟩]

theorem keyRows_of_compile_chain :
    ∃ t', Tables.addVersion default "g" 1 chain = (.ok (), t') ∧
      ∃ c', (Cursor.new "g" 1 ∅).execute t' fromStart = (.ok (), c') ∧
        c'.keyRows ["?x"] = [[.ofUri "g" ⟨"", "c"⟩ 1], [.ofUri "g" ⟨"", "b"⟩ 1]] ∧
        ∀ row, row ∈ c'.keyRows ["?x"] ↔
          (Cursor.new "g" 1 ∅).Answers (statementsIn "g" 1 chain) fromStart row := by
  have hlack : (default : Tables).store.Lacks (Checksum.ofText "g", 1) := by
    intro k _
    rfl
  have hfits : FitsMemory chain := by decide
  obtain ⟨t', hadd, h⟩ := keyRows_of_compile (t := default) Dictionary.sound_empty hlack hfits
    (by decide : (1 : UInt64) ≠ 0) (by decide +kernel)
  obtain rfl : t' = (Tables.addVersion default "g" 1 chain).2 := by rw [hadd]
  have hhop : ∀ p ∈ fromStart.patterns, p.TakesHop := by decide
  have hrun : ((Cursor.new "g" 1 ∅).execute (Tables.addVersion default "g" 1 chain).2
      fromStart).1 = .ok () := eq_ok_of_toOption (by decide +kernel)
  have hc := h (.new "g" 1 ∅) _ fromStart rfl rfl Cursor.faithful_new hhop (Prod.ext hrun rfl)
  exact ⟨_, hadd, _, Prod.ext hrun rfl, by decide +kernel, hc.2⟩

end Tables

end TripleStore
