import TripleStore.Proofs.Query.Answer
import TripleStore.Proofs.Query.Rekeyed

/-!
# Queries on more statements

Whatever a pattern says of some statements it says of more statements.  This holds
for every quantifier, as a path of any length stays one, and for the starts of a
path, as no start is lost.  So a row that some statements have is a row that more
statements have.

The two lists of statements may be those of two versions.  Then the keys of the
one are replaced by those of the other, and the statements of the first are among
those of the second in this sense.
-/

open Relation

namespace TripleStore

open Reading

variable {φ : Key → Key} {ss ss' : List Statement}

/-- A statement with other keys. -/
def Statement.rekey (φ : Key → Key) (st : Statement) : Statement :=
  ⟨φ st.subject, φ st.predicate, φ st.object⟩

/-- Statements are among others, if their keys are replaced. -/
def Among (φ : Key → Key) (ss ss' : List Statement) : Prop := ∀ st ∈ ss, st.rekey φ ∈ ss'

namespace Among

/-! ## Paths -/

theorem hop (h : Among φ ss ss') {p s o : Key} (hop : Hop ss p s o) : Hop ss' (φ p) (φ s) (φ o) :=
  h _ hop

theorem isNode (h : Among φ ss ss') {k : Key} (hk : IsNode ss k) : IsNode ss' (φ k) := by
  obtain ⟨st, hst, hk⟩ := hk
  exact ⟨_, h st hst, hk.imp (congrArg φ) (Or.imp (congrArg φ) (congrArg φ))⟩

theorem segmentLinks (h : Among φ ss ss') {seg : Segment} {a b : Key} (hab : seg.Links ss a b) :
    (seg.rekey φ).Links ss' (φ a) (φ b) := by
  have hhop : ∀ x y, Hop ss seg.predicate x y → Hop ss' (φ seg.predicate) (φ x) (φ y) :=
    fun _ _ => h.hop
  obtain ⟨predicate, quantifier⟩ := seg
  cases quantifier with
  | single => exact hhop a b hab
  | zeroOne =>
    rcases hab with hab | ⟨ha, rfl⟩
    · exact .inl (hhop a b hab)
    · exact .inr ⟨h.isNode ha, rfl⟩
  | onePlus => exact TransGen.lift φ hhop a b hab
  | zeroPlus => exact ⟨h.isNode hab.1, ReflTransGen.lift φ hhop a b hab.2⟩

theorem pathLinks (h : Among φ ss ss') {segs : List Segment} {a b : Key}
    (hab : PathLinks ss segs a b) : PathLinks ss' (segs.map (Segment.rekey φ)) (φ a) (φ b) := by
  induction segs generalizing a with
  | nil => exact congrArg φ hab
  | cons seg segs ih =>
    obtain ⟨c, hac, hcb⟩ := hab
    exact ⟨φ c, h.segmentLinks hac, ih hcb⟩

/-- No start of a path is lost. -/
theorem pathStart (h : Among φ ss ss') {segs : List Segment} {k : Key}
    (hk : PathStart ss segs k) : PathStart ss' (segs.map (Segment.rekey φ)) (φ k) := by
  induction segs with
  | nil => exact hk
  | cons seg segs ih =>
    rcases hk with ⟨o, ho⟩ | ⟨hq, hk⟩
    · exact .inl ⟨φ o, h.hop ho⟩
    · exact .inr ⟨hq, ih hk⟩

/-! ## Terms -/

variable {f : String → Key} {t : Term}

theorem holds (h : Among φ ss ss') (ht : t.Holds ss f) : (t.rekey φ).Holds ss' (φ ∘ f) := by
  have hslot : ∀ slot : Slot, (slot.rekey φ).value (φ ∘ f) = φ (slot.value f) := by
    intro slot
    cases slot with
    | free v => rfl
    | bound k => rfl
  have hlink : ∀ (link : Link) {x y : Key}, link.Links ss f x y →
      (link.rekey φ).Links ss' (φ ∘ f) (φ x) (φ y) := by
    intro link x y hxy
    cases link with
    | free v => exact h.hop hxy
    | path segs => exact h.pathLinks hxy
  have hends := hlink t.link ht
  rwa [← hslot, ← hslot] at hends

/-- What is found of a term is found among more statements. -/
theorem found (h : Among φ ss ss') {bound : List String} (ht : t.Found ss bound f) :
    (t.rekey φ).Found ss' bound (φ ∘ f) := by
  refine ⟨h.holds ht.1, ?_⟩
  rintro ⟨s, o, segs, hs, hl, ho, hsb, hob⟩
  -- the term has the same variables, so it was not anchored before either
  obtain ⟨subject, link, object, p⟩ := t
  cases subject with
  | bound k => cases hs
  | free v =>
    cases link with
    | free w => cases hl
    | path segs' =>
      cases object with
      | bound k => cases ho
      | free w =>
        cases hs
        cases ho
        exact h.pathStart (ht.2 ⟨_, _, segs', rfl, rfl, rfl, hsb, hob⟩)

theorem allowed (h : Among φ ss ss') {bound : List String} {ts : List Term}
    (hts : Allowed ss bound ts f) : Allowed ss' bound (ts.map (Term.rekey φ)) (φ ∘ f) := by
  induction ts generalizing bound with
  | nil => trivial
  | cons t ts ih =>
    refine ⟨h.found hts.1, ?_⟩
    rw [Term.roleVars_rekey]
    exact ih hts.2

end Among

theorem varsOf_rekey (ts : List Term) : varsOf (ts.map (Term.rekey φ)) = varsOf ts := by
  simp [varsOf, List.flatMap_map]

/-! ## Rows -/

/-- The statements of a version are among those of a later one that holds more. -/
theorem among_statementsIn {graph : String} {version later : UInt64} {ts ts' : List Triple}
    (h : ∀ tr ∈ ts, tr ∈ ts') : Among (fun k => k.atVersion later)
      (statementsIn graph version ts) (statementsIn graph later ts') := by
  intro st hst
  obtain ⟨tr, htr, rfl⟩ := List.mem_map.mp hst
  exact List.mem_map.mpr ⟨tr, h tr htr, rfl⟩

/-- A key that is not empty is not empty in a later version. -/
theorem Key.atVersion_ne_empty {k : Key} {later : UInt64} (hk : k ≠ Key.empty)
    (hle : k.version ≤ later) : k.atVersion later ≠ Key.empty := by
  intro heq
  obtain ⟨hgraph, hname, hlater⟩ := Key.ext_iff.mp heq
  have hzero : later = 0 := hlater
  exact hk (Key.ext hgraph hname (UInt64.le_zero_iff.mp (hzero ▸ hle)))

namespace Cursor

variable {t t' : Tables} {c c' d d' : Cursor} {q : Query} {ts ts' : List Triple}

/-- What rows bind in a version, rows bind in a later one that holds more statements. -/
theorem has_of_execute (ht : t.Holds c.graph c.version ts) (ht' : t'.Holds c'.graph c'.version ts')
    (hc : c.Faithful t) (hc' : c'.Faithful t') (hgraph : c'.graph = c.graph)
    (hnames : c'.namespaces = c.namespaces) (hle : c.version ≤ c'.version)
    (hts : ∀ tr ∈ ts, tr ∈ ts') (h : c.execute t q = (.ok (), d))
    (h' : c'.execute t' q = (.ok (), d')) {f : String → Key} (hf : d.relation.Has f) :
    ∃ f', d'.relation.Has f' ∧
      ∀ v, f v ≠ Key.empty → f' v ≠ Key.empty ∧ f' v = (f v).atVersion c'.version := by
  have hname : ∀ u k, c.keyOf t u = .ok k → k = c.nameOf u := fun u k hk => ht.sound.keyFor_eq hk
  have hname' : ∀ u k, c'.keyOf t' u = .ok k → k = c'.nameOf u :=
    fun u k hk => ht'.sound.keyFor_eq hk
  have hs : (c.source t).Shows (Checksum.ofText c.graph, c.version)
      (statementsIn c.graph c.version ts) := hc.source ▸ ht.shows
  have hs' : (c'.source t').Shows (Checksum.ofText c'.graph, c'.version)
      (statementsIn c'.graph c'.version ts') := hc'.source ▸ ht'.shows
  obtain ⟨p, hp, -, hhas⟩ := execute_plan hs hname h
  obtain ⟨p', hp', -, hhas'⟩ := execute_plan hs' hname' h'
  -- the terms are run in the same order, with the keys of the later version
  have hterms : p'.steps.map Step.term =
      (p.steps.map Step.term).map (Term.rekey fun k => k.atVersion c'.version) := by
    refine Plan.steps_rekey (fun pat _ u _ _ k k' hk hk' => ?_) hp hp'
    rw [hname u k hk, hname' u k' hk', nameOf, nameOf, expand, expand, hgraph, hnames]
    rfl
  have hamong : Among (fun k => k.atVersion c'.version) (statementsIn c.graph c.version ts)
      (statementsIn c'.graph c'.version ts') := hgraph ▸ among_statementsIn hts
  obtain ⟨hbinds, hall⟩ := (hhas f).mp hf
  have hlater : ∀ v, f v ≠ Key.empty → (f v).atVersion c'.version ≠ Key.empty := by
    intro v hv
    refine Key.atVersion_ne_empty hv ?_
    have hform : ∀ x ∈ p.steps.map Step.term,
        x.Formed (Checksum.ofText c.graph, c.version) := by
      intro x hx
      obtain ⟨hread, -⟩ := plan_spec hname hp
      obtain ⟨y, hy, rfl⟩ := List.mem_map.mp hx
      obtain ⟨pat, -, hr⟩ := hread y hy
      exact hr.formed _ fun _ => rfl
    have hplace := hs.place _ (hall.isNode hform ((hbinds v).mp hv))
    have hversion : (f v).version = c.version := congrArg Prod.snd hplace
    exact hversion ▸ hle
  refine ⟨restrict (varsOf (p.steps.map Step.term)) fun v => (f v).atVersion c'.version,
    (hhas' _).mpr ?_, fun v hv => ?_⟩
  · rw [hterms, varsOf_rekey]
    refine ⟨binds_restrict fun v hv => hlater v ((hbinds v).mpr hv), ?_⟩
    refine (Allowed.congr fun v hv => restrict_of_mem ?_).mpr (hamong.allowed hall)
    rwa [varsOf_rekey] at hv
  · rw [restrict_of_mem ((hbinds v).mp hv)]
    exact ⟨hlater v hv, rfl⟩

end Cursor

end TripleStore
