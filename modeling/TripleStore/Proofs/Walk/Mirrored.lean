import TripleStore.Proofs.Query.Answer

/-!
# Paths walked from either end

A path over a stored version is walked from a subject along outgoing edges, and from
an object along incoming edges and with the last segment first.  The two walks read
different edges in a different order, and they find the same pairs: those that the
composition of the segments relates.

On the way a frontier entity that was visited on the walk from another one is not
followed again.  What is found is the same as if each of them were followed.

The predicate of a segment is looked up by its term alone, so a segment means what it
means with the key that the term has in the version.
-/

namespace TripleStore

variable {here : UInt32 × UInt64} {ss : List Statement} {src : Source} {d : Direction}

/-! ## Predicates of other versions -/

/-- A segment with the key that the term of its predicate has in a place. -/
def Segment.inPlace (here : UInt32 × UInt64) (seg : Segment) : Segment :=
  ⟨⟨here.1, seg.predicate.name, here.2⟩, seg.quantifier⟩

theorem Segment.place_inPlace (seg : Segment) : (seg.inPlace here).predicate.place = here := rfl

theorem Segment.place_map_inPlace (path : List Segment) :
    ∀ seg ∈ path.map (Segment.inPlace here), seg.predicate.place = here := by
  intro seg hseg
  obtain ⟨seg, -, rfl⟩ := List.mem_map.mp hseg
  exact seg.place_inPlace

/-- A path over predicates of the place means what it says. -/
theorem Segment.map_inPlace {path : List Segment} (h : ∀ seg ∈ path, seg.predicate.place = here) :
    path.map (Segment.inPlace here) = path := by
  have hself : ∀ seg ∈ path, seg.inPlace here = seg := by
    intro seg hseg
    cases h seg hseg
    rfl
  rw [List.map_congr_left hself, List.map_id']

namespace Reading

theorem follow_inPlace (d : Direction) (k : Key) (seg : Segment) :
    follow d k (seg.inPlace here) = follow d k seg := rfl

theorem walk_inPlace (d : Direction) (segs : List Segment) (frontier : Keys) :
    walk d (segs.map (Segment.inPlace here)) frontier = walk d segs frontier := by
  induction segs generalizing frontier with
  | nil => rfl
  | cons seg segs ih =>
    have hadvance : ∀ sofar ks, advanceAll d (seg.inPlace here) sofar ks =
        advanceAll d seg sofar ks := by
      intro sofar ks
      induction ks generalizing sofar with
      | nil => rfl
      | cons k ks ihk =>
        simp only [advanceAll, advance, follow_inPlace, ihk]
    simp only [List.map_cons, walk, hadvance, ih]

/-! ## Frontiers -/

/-- What a segment relates to a settled key is what following it from there reaches. -/
theorem follows_iff_reached (hs : src.Presents here ss) {seg : Segment} {k t : Key}
    (hp : seg.predicate.place = here) (hk : src.Settles ss k) :
    d.Follows ss seg k t ↔ ∃ r, (follow d k seg).answer src = .ok r ∧ t ∈ r.reached := by
  rcases hk with hn | habsent
  · obtain ⟨r, hr, hf⟩ := follow_spec (d := d) hs hp hn
    constructor
    · intro hkt
      exact ⟨r, hr, (hf.reached t).mpr hkt⟩
    · rintro ⟨r', hr', ht⟩
      cases hr.symm.trans hr'
      exact (hf.reached t).mp ht
  · constructor
    · intro hkt
      obtain ⟨e, he, -⟩ := hs.present k hkt.isNode.1
      cases he.symm.trans habsent
    · rintro ⟨r, hr, -⟩
      cases hr.symm.trans (follow_absent habsent)

/-- A walk over one segment finds all that following it from any key of the frontier
reaches, although not all of them are followed. -/
theorem mem_walk_singleton (hs : src.Presents here ss) (seg : Segment) {frontier : Keys}
    (hf : ∀ k ∈ frontier, src.Settles ss k) :
    ∃ ks, (walk d [seg] frontier).answer src = .ok ks ∧ ∀ t, t ∈ ks ↔
      ∃ k ∈ frontier, ∃ r, (follow d k seg).answer src = .ok r ∧ t ∈ r.reached := by
  obtain ⟨ks, hks, hspec⟩ := walk_spec hs d [seg.inPlace here] frontier
    (fun _ h => List.mem_singleton.mp h ▸ seg.place_inPlace) hf
  refine ⟨ks, walk_inPlace d [seg] frontier ▸ hks, fun t => ?_⟩
  have hwalks : ∀ k, d.Walks ss [seg.inPlace here] k t ↔ d.Follows ss (seg.inPlace here) k t := by
    intro k
    simp [Direction.Walks]
  rw [hspec]
  refine exists_congr fun k => and_congr_right fun hk => ?_
  rw [hwalks, follows_iff_reached hs seg.place_inPlace (hf k hk), follow_inPlace]

/-! ## Both ends -/

/-- Walks from both ends of a path find what it relates. -/
theorem mem_objects_and_subjects (hs : src.Presents here ss) (path : List Segment) {s o : Key}
    (hsub : src.Settles ss s) (hobj : src.Settles ss o) :
    ∃ os subs, (objects s path).answer src = .ok os ∧ (subjects o path).answer src = .ok subs ∧
      (o ∈ os ↔ PathLinks ss (path.map (Segment.inPlace here)) s o) ∧
      (s ∈ subs ↔ PathLinks ss (path.map (Segment.inPlace here)) s o) := by
  obtain ⟨os, hos, hobjects⟩ := objects_spec hs (Segment.place_map_inPlace path) hsub
  obtain ⟨subs, hsubs, hsubjects⟩ :=
    subjects_spec hs (Segment.place_map_inPlace path) hobj
  refine ⟨os, subs, ?_, ?_, hobjects o, hsubjects s⟩
  · rwa [objects, walk_inPlace] at hos
  · rwa [subjects, ← List.map_reverse, walk_inPlace] at hsubs

end Reading

/-! ## Stored versions -/

namespace Tables

variable {t t' : Tables} {graph : String} {version : UInt64} {ts : List Triple}

/-- In a version that was compiled and stored, a path leads from a subject to an object if and
only if it leads back, and if and only if its segments relate them one after the other.  Each
segment leads from a frontier to all that it leads to from any key of it.  The keys are nodes of
the version or have no record, as it is with all keys of a version that had none before. -/
theorem walks_of_compile (hd : t.dictionary.Sound) (hts : FitsMemory ts)
    (hcompile : (Adjacency.compile graph version ts t.dictionary).isOk = true) :
    ∃ t', t.addVersion graph version ts = (.ok (), t') ∧
      (t.store.Lacks (Checksum.ofText graph, version) → ∀ k : Key,
        k.place = (Checksum.ofText graph, version) →
          Source.Settles t'.store.entity (statementsIn graph version ts) k) ∧
      ∀ c : Cursor, c.Faithful t' →
        (∀ (path : List Segment) (s o : Key),
          Source.Settles t'.store.entity (statementsIn graph version ts) s →
          Source.Settles t'.store.entity (statementsIn graph version ts) o →
            ∃ os subs, (c.run t' (Reading.objects s path)).1 = .ok os ∧
              (c.run t' (Reading.subjects o path)).1 = .ok subs ∧ (o ∈ os ↔ s ∈ subs) ∧
              (o ∈ os ↔ PathLinks (statementsIn graph version ts)
                (path.map (Segment.inPlace (Checksum.ofText graph, version))) s o)) ∧
        ∀ (dir : Direction) (seg : Segment) (frontier : Keys),
          (∀ k ∈ frontier, Source.Settles t'.store.entity (statementsIn graph version ts) k) →
            ∃ ks, (c.run t' (Reading.walk dir [seg] frontier)).1 = .ok ks ∧ ∀ k, k ∈ ks ↔
              ∃ f ∈ frontier, ∃ r, (c.run t' (Reading.follow dir f seg)).1 = .ok r ∧
                k ∈ r.reached := by
  cases hc : Adjacency.compile graph version ts t.dictionary with
  | error f =>
    rw [hc] at hcompile
    cases hcompile
  | ok p =>
    obtain ⟨t', hadd, hstores⟩ := addVersion_of_compile hd hts hc
    refine ⟨t', hadd, fun hlack k hk => (hstores.holds hlack).shows.settles hk,
      fun c hfaithful => ?_⟩
    simp only [Cursor.run, hfaithful.source]
    constructor
    · intro path s o hsub hobj
      obtain ⟨os, subs, hos, hsubs, ho, hs⟩ :=
        Reading.mem_objects_and_subjects hstores.presents path hsub hobj
      exact ⟨os, subs, hos, hsubs, ho.trans hs.symm, ho⟩
    · intro dir seg frontier hfrontier
      exact Reading.mem_walk_singleton hstores.presents seg hfrontier

/-- One hop or more over the predicate of the chain, and then any number of hops. -/
def onwards : List Segment :=
  [⟨.ofUri "g" ⟨"", "p"⟩ 1, .onePlus⟩, ⟨.ofUri "g" ⟨"", "p"⟩ 1, .zeroPlus⟩]

theorem walks_of_compile_chain :
    ∃ t', Tables.addVersion default "g" 1 chain = (.ok (), t') ∧
      ∃ os subs, ((Cursor.new "g" 1 ∅).run t'
          (Reading.objects (.ofUri "g" ⟨"", "a"⟩ 1) onwards)).1 = .ok os ∧
        ((Cursor.new "g" 1 ∅).run t'
          (Reading.subjects (.ofUri "g" ⟨"", "c"⟩ 1) onwards)).1 = .ok subs ∧
        Key.ofUri "g" ⟨"", "c"⟩ 1 ∈ os ∧ Key.ofUri "g" ⟨"", "a"⟩ 1 ∈ subs ∧
        PathLinks (statementsIn "g" 1 chain) onwards (.ofUri "g" ⟨"", "a"⟩ 1)
          (.ofUri "g" ⟨"", "c"⟩ 1) := by
  have hfits : FitsMemory chain := by decide
  obtain ⟨t', hadd, hsettles, h⟩ := walks_of_compile (t := default) Dictionary.sound_empty hfits
    (by decide +kernel : (Adjacency.compile "g" 1 chain .empty).isOk = true)
  obtain rfl : t' = (Tables.addVersion default "g" 1 chain).2 := by rw [hadd]
  have hkey := hsettles fun _ _ => rfl
  obtain ⟨os, subs, hos, hsubs, hback, hlinks⟩ :=
    (h (.new "g" 1 ∅) Cursor.faithful_new).1 onwards (.ofUri "g" ⟨"", "a"⟩ 1)
      (.ofUri "g" ⟨"", "c"⟩ 1) (hkey _ rfl) (hkey _ rfl)
  have hplain : onwards.map (Segment.inPlace (Checksum.ofText "g", 1)) = onwards :=
    Segment.map_inPlace (by decide +kernel)
  have hcompute : (((Cursor.new "g" 1 ∅).run (Tables.addVersion default "g" 1 chain).2
      (Reading.objects (.ofUri "g" ⟨"", "a"⟩ 1) onwards)).1.toOption.map fun os =>
        os.contains (.ofUri "g" ⟨"", "c"⟩ 1)) = some true := by decide +kernel
  rw [hos] at hcompute
  have ho : Key.ofUri "g" ⟨"", "c"⟩ 1 ∈ os :=
    Std.ExtTreeSet.contains_iff_mem.mp (Option.some.inj hcompute)
  rw [hplain] at hlinks
  exact ⟨_, hadd, os, subs, hos, hsubs, ho, hback.mp ho, hlinks.mp ho⟩

end Tables

end TripleStore
