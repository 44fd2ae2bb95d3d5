import Mathlib.Data.List.ProdSigma
import TripleStore.Proofs.Checksum
import TripleStore.Proofs.Dictionary.Staging
import TripleStore.Proofs.Query.Choice

/-!
# Operators that differ

It matters from which variable a term is matched if more tuples are found than any
relation has rows, and if two versions share a place.

The first happens in a crowd.  Its members are linked with a hub, both ways, so two
links lead from any member to any member.  Let rows pair each member with the link
itself, so that both ends of a term are bound.  No two links lead to the link.  From
the members all their pairs are found, and if these are too many the step is refused
and leaves the rows.  From the link nothing is found and no row is left.

The second happens to graphs whose names have the same checksum.  A node of both
has the record of the version that was stored last.  A walk from another node may
still come upon the statements of the first one.
-/

namespace TripleStore

variable {graph : String} {version : UInt64} {ts : List Triple}

/-! ## Terms of four bytes -/

/-- A term of four bytes that has no namespace. -/
structure Uri.Brief (u : Uri) : Prop where
  /-- There is no namespace. -/
  ns : u.ns = ""
  /-- The value has four bytes. -/
  size : Text.Utf8.size u.value = 4

/-- Such terms are told apart by their checksums. -/
theorem Uri.Brief.eq_of_checksum {u w : Uri} (hu : u.Brief) (hw : w.Brief)
    (h : Dictionary.checksum u = Dictionary.checksum w) : u = w := by
  have hinput : ∀ {u : Uri}, u.Brief → u.hashInput = u.value := by
    intro u hu
    rw [Uri.hashInput, hu.ns]
    rfl
  rw [Dictionary.checksum, Dictionary.checksum, hinput hu, hinput hw] at h
  exact Uri.ext (hu.ns.trans hw.ns.symm) (Checksum.ofText_injective hu.size hw.size h)

/-- Statements about such terms can be compiled. -/
theorem Adjacency.isOk_compile_of_brief (h : ∀ tr ∈ ts, ∀ u ∈ tr.terms, u.Brief) :
    (Adjacency.compile graph version ts .empty).isOk = true := by
  have hbrief : ∀ u ∈ ts.flatMap Triple.terms, u.Brief := by
    intro u hu
    obtain ⟨tr, htr, hu⟩ := List.mem_flatMap.mp hu
    exact h tr htr u hu
  obtain ⟨staged, hstage⟩ : ∃ staged, Dictionary.stage .empty ∅ (ts.flatMap Triple.terms) =
      .ok staged :=
    Dictionary.exists_stage_of_apart (by simp [Dictionary.empty]) fun u hu w hw =>
      (hbrief u hu).eq_of_checksum (hbrief w hw)
  cases hc : Adjacency.compile graph version ts .empty with
  | ok compiled => rfl
  | error f =>
    rw [compile_eq_error Dictionary.sound_empty, hstage] at hc
    cases hc

/-! ## A crowd -/

namespace Crowd

/-- What all members are linked with. -/
def hub : Uri := ⟨"", "hubs"⟩

/-- What links them. -/
def link : Uri := ⟨"", "link"⟩

/-- The key of a term in the version of the crowd. -/
def key (u : Uri) : Key := .ofUri "g" u 1

/-- Each member is linked with the hub, both ways. -/
def statements (us : List Uri) : List Triple :=
  us.flatMap fun u => [⟨u, link, hub⟩, ⟨hub, link, u⟩]

/-- Two links, one after the other. -/
def twice : List Segment := [⟨key link, .single⟩, ⟨key link, .single⟩]

/-- What two links lead to, between two variables. -/
def twoLinks : Term where
  subject := .free "?x"
  link := .path twice
  object := .free "?y"
  pattern := ⟨⟨"", "?x"⟩, [⟨link, .single⟩, ⟨link, .single⟩], ⟨"", "?y"⟩⟩

/-- A cursor with a row for each member, from the member to the link. -/
def cursor (us : List Uri) : Cursor :=
  .onTuples "g" 1 ["?x", "?y"] (us.map fun u => [key u, key link])

/-- Members of a crowd: there are some, and not too many for the rows, and they are told apart
from each other and from the link. -/
structure Members (us : List Uri) : Prop where
  /-- There are some. -/
  nonempty : us ≠ []
  /-- They have a row each. -/
  few : us.length ≤ Relation.maxRows
  /-- They are different. -/
  nodup : us.Nodup
  /-- The link is not one of them. -/
  apart : link ∉ us
  /-- They have four bytes. -/
  brief : ∀ u ∈ us, u.Brief

variable {us : List Uri} {u w : Uri} {t : Tables} {a b k : Key}

theorem hub_brief : hub.Brief := ⟨rfl, by decide⟩

theorem link_brief : link.Brief := ⟨rfl, by decide⟩

theorem key_ne_empty : key u ≠ Key.empty :=
  fun h => absurd (congrArg Key.version h) (by decide : (1 : UInt64) ≠ 0)

theorem place_key (u : Uri) : (key u).place = (Checksum.ofText "g", 1) := Key.place_ofUri "g" u 1

theorem key_inj (hu : u.Brief) (hw : w.Brief) (h : key u = key w) : u = w :=
  hu.eq_of_checksum hw (congrArg Key.name h)

/-! ### Rows -/

/-- Two keys for the two variables. -/
def pick (a b : Key) : String → Key := fun v =>
  if v = "?x" then a else if v = "?y" then b else Key.empty

theorem binds_pick (ha : a ≠ Key.empty) (hb : b ≠ Key.empty) : Binds (pick a b) ["?x", "?y"] := by
  intro v
  by_cases hx : v = "?x"
  · simp [pick, hx, ha]
  · by_cases hy : v = "?y"
    · simp [pick, hy, hb]
    · simp [pick, hx, hy]

theorem lists_cursor (h : Members us) : Relation.Lists ["?x", "?y"]
    (us.map fun u => [key u, key link]) (cursor us).relation :=
  Cursor.lists_onTuples (List.cons_ne_nil _ _) (by simp) (by simpa using h.few)

theorem key_mem_values (h : Members us) (hu : u ∈ us) :
    key u ∈ (cursor us).relation.valuesFor "?x" ∧
      key link ∈ (cursor us).relation.valuesFor "?y" := by
  have hb : Binds (pick (key u) (key link)) ["?x", "?y"] := binds_pick key_ne_empty key_ne_empty
  have hmem : [key u, key link] ∈ us.map fun u => [key u, key link] :=
    List.mem_map.mpr ⟨u, hu, rfl⟩
  exact ⟨(lists_cursor h).mem_valuesFor.mpr ⟨key_ne_empty, _, hb, hmem, rfl⟩,
    (lists_cursor h).mem_valuesFor.mpr ⟨key_ne_empty, _, hb, hmem, rfl⟩⟩

/-- A row has a member for one variable, and the link for the other. -/
theorem eq_of_mem_values (h : Members us) {v : String}
    (hk : k ∈ (cursor us).relation.valuesFor v) :
    (v = "?x" ∧ ∃ u ∈ us, k = key u) ∨ (v = "?y" ∧ k = key link) := by
  obtain ⟨hne, f, hf, hmem, rfl⟩ := (lists_cursor h).mem_valuesFor.mp hk
  obtain ⟨u, hu, heq⟩ := List.mem_map.mp hmem
  simp only [List.map_cons, List.map_nil, List.cons.injEq, and_true] at heq
  have hv := (hf v).mp hne
  simp only [List.mem_cons, List.not_mem_nil, or_false] at hv
  rcases hv with rfl | rfl
  · exact .inl ⟨rfl, u, hu, heq.1.symm⟩
  · exact .inr ⟨rfl, heq.2.symm⟩

theorem binds_cursor (h : Members us) :
    ∀ v ∈ ["?x", "?y"], (cursor us).relation.binds v = true := by
  obtain ⟨u, hu⟩ := List.exists_mem_of_ne_nil us h.nonempty
  have hi := (lists_cursor h).exact.toIndexed
  have hbinds : ∀ {v k}, k ∈ (cursor us).relation.valuesFor v →
      (cursor us).relation.binds v = true := by
    intro v k hk
    obtain ⟨hne, row, hrow, rfl⟩ := hi.mem_valuesFor.mp hk
    exact hi.binds_iff.mpr ⟨row, hrow, hne⟩
  obtain ⟨hx, hy⟩ := key_mem_values h hu
  exact List.forall_mem_cons.mpr ⟨hbinds hx, List.forall_mem_singleton.mpr (hbinds hy)⟩

/-- Pairs of members are told apart by what they give to the variables. -/
theorem nodup_pairs (h : Members us) :
    ((us ×ˢ us).map fun p => pick (key p.1) (key p.2)).Nodup := by
  refine (h.nodup.product h.nodup).map_on fun p hp q hq heq => ?_
  obtain ⟨hp₁, hp₂⟩ := List.mem_product.mp hp
  obtain ⟨hq₁, hq₂⟩ := List.mem_product.mp hq
  exact Prod.ext (key_inj (h.brief _ hp₁) (h.brief _ hq₁) (congrFun heq "?x"))
    (key_inj (h.brief _ hp₂) (h.brief _ hq₂) (congrFun heq "?y"))

/-! ### Links -/

theorem mem_statements {tr : Triple} :
    tr ∈ statements us ↔ ∃ u ∈ us, tr = ⟨u, link, hub⟩ ∨ tr = ⟨hub, link, u⟩ := by
  simp [statements]

theorem length_statements : (statements us).length = us.length * 2 := by
  simp [statements, List.length_flatMap]

theorem hop_iff : Hop (statementsIn "g" 1 (statements us)) (key link) a b ↔
    ∃ u ∈ us, a = key u ∧ b = key hub ∨ a = key hub ∧ b = key u := by
  rw [Hop, statementsIn, List.mem_map]
  constructor
  · rintro ⟨tr, htr, heq⟩
    obtain ⟨hs, -, ho⟩ := Statement.mk.inj heq
    obtain ⟨u, hu, rfl | rfl⟩ := mem_statements.mp htr
    · exact ⟨u, hu, .inl ⟨hs.symm, ho.symm⟩⟩
    · exact ⟨u, hu, .inr ⟨hs.symm, ho.symm⟩⟩
  · rintro ⟨u, hu, ⟨rfl, rfl⟩ | ⟨rfl, rfl⟩⟩
    · exact ⟨_, mem_statements.mpr ⟨u, hu, .inl rfl⟩, rfl⟩
    · exact ⟨_, mem_statements.mpr ⟨u, hu, .inr rfl⟩, rfl⟩

/-- A version with the statements of a crowd can be stored. -/
theorem exists_holds (h : Members us) (hfits : Tables.FitsMemory (statements us)) :
    ∃ t, Tables.addVersion default "g" 1 (statements us) = (.ok (), t) ∧
      t.Holds "g" 1 (statements us) := by
  have hbrief : ∀ tr ∈ statements us, ∀ u ∈ tr.terms, u.Brief := by
    intro tr htr
    obtain ⟨u, hu, rfl | rfl⟩ := mem_statements.mp htr
    · simpa [Triple.terms] using ⟨h.brief u hu, link_brief, hub_brief⟩
    · simpa [Triple.terms] using ⟨hub_brief, link_brief, h.brief u hu⟩
  have hlack : (default : Tables).store.Lacks (Checksum.ofText "g", 1) := Store.lacks_empty
  exact Tables.holds_of_compile Dictionary.sound_empty hlack hfits
    (Adjacency.isOk_compile_of_brief hbrief)

theorem faithful_cursor : (cursor us).Faithful t := Cursor.faithful_of_cache rfl

section

variable (h : Members us) (ht : t.Holds "g" 1 (statements us))
include ht

theorem links_iff : Source.Links t.store.entity twice a (key w) ↔
    ∃ c, Hop (statementsIn "g" 1 (statements us)) (key link) a c ∧
      Hop (statementsIn "g" 1 (statements us)) (key link) c (key w) := by
  rw [ht.shows.links_iff (.inr (place_key w))]
  refine exists_congr fun c => and_congr_right fun _ => ?_
  constructor
  · rintro ⟨d, hop, rfl⟩
    exact hop
  · exact fun hop => ⟨_, hop, rfl⟩

/-- Over the hub, every member is linked with every member. -/
theorem links_of_members (hu : u ∈ us) (hw : w ∈ us) :
    Source.Links t.store.entity twice (key u) (key w) :=
  (links_iff ht).mpr ⟨key hub, hop_iff.mpr ⟨u, hu, .inl ⟨rfl, rfl⟩⟩,
    hop_iff.mpr ⟨w, hw, .inr ⟨rfl, rfl⟩⟩⟩

include h

/-- Nothing is linked with the link. -/
theorem not_links_link : ¬ Source.Links t.store.entity twice a (key link) := by
  intro hlinks
  obtain ⟨c, -, hop⟩ := (links_iff ht).mp hlinks
  obtain ⟨u, hu, ⟨-, heq⟩ | ⟨-, heq⟩⟩ := hop_iff.mp hop
  · exact absurd (key_inj link_brief hub_brief heq) (by decide)
  · exact h.apart (key_inj link_brief (h.brief u hu) heq ▸ hu)

/-- What is linked is found from either variable. -/
theorem exists_findsFrom {op : Operator} (hop : op.Pivots (cursor us).relation twoLinks) :
    ∃ tuples,
      Operator.FindsFrom ((cursor us).source t) op twoLinks (cursor us).relation tuples := by
  refine Operator.found_pivots (fun v k hk => ?_) hop
  have hplace : k.place = (Checksum.ofText "g", 1) := by
    rcases eq_of_mem_values h hk with ⟨-, u, -, rfl⟩ | ⟨-, rfl⟩
    · exact place_key u
    · exact place_key link
  rw [faithful_cursor.source]
  exact ⟨_, hplace ▸ ht.shows⟩

/-- From the members all pairs of them are found. -/
theorem refused (hmany : Relation.maxRows < us.length * us.length) :
    Step.Refused t (cursor us) ⟨.objectsOfBound, twoLinks⟩ := by
  have hpivots : Operator.objectsOfBound.Pivots (cursor us).relation twoLinks :=
    .objectsOfBound _ _ _ _ (binds_cursor h "?x" (by decide))
  obtain ⟨tuples, hf⟩ := exists_findsFrom h ht hpivots
  rcases Step.leaves_cases hpivots.roleVars_ne_nil hf with hrefused | ⟨found, hl, -⟩
  · exact hrefused
  -- a relation that lists them has more rows than it may have
  have hsource : (cursor us).source t = t.store.entity := faithful_cursor.source
  have hhas : ∀ f ∈ (us ×ˢ us).map fun p => pick (key p.1) (key p.2), found.Has f := by
    rw [List.forall_mem_map]
    intro p hp
    obtain ⟨hu, hw⟩ := List.mem_product.mp hp
    refine (hl.has _).mpr ⟨binds_pick key_ne_empty key_ne_empty, (hf.2.2 _).mpr ⟨?_, ?_⟩⟩
    · rw [hsource]
      exact links_of_members ht hu hw
    · exact List.forall_mem_singleton.mpr (key_mem_values h hu).1
  have hle := (Relation.length_le_size (nodup_pairs h) hhas).trans hl.size_le
  rw [List.length_map, List.length_product] at hle
  exact absurd hle (Nat.not_le.mpr hmany)

/-- From the link nothing is found. -/
theorem eq_nil_of_findsFrom {op : Operator} (hop : "?y" ∈ op.pivots twoLinks (cursor us).relation)
    {tuples : List (List Key)}
    (hf : Operator.FindsFrom ((cursor us).source t) op twoLinks (cursor us).relation tuples) :
    tuples = [] := by
  refine List.eq_nil_iff_forall_not_mem.mpr fun keys hk => ?_
  obtain ⟨a, b, rfl⟩ := List.length_eq_two.mp (hf.2.1 keys hk)
  obtain ⟨hlinked, hvalues⟩ := (hf.2.2 (pick a b)).mp hk
  rcases eq_of_mem_values h (hvalues "?y" hop) with ⟨hxy, -⟩ | ⟨-, heq⟩
  · exact absurd hxy (by decide)
  · obtain rfl : b = key link := heq
    rw [Cursor.Faithful.source faithful_cursor] at hlinked
    exact not_links_link h ht hlinked

/-- From the link no row is left. -/
theorem exists_leaves : ∃ left : Relation, left.isEmpty = true ∧
    ∀ op ∈ [Operator.ends, .subjectsOfBound],
      Step.leaves t (cursor us) ⟨op, twoLinks⟩ = (.ok (), left) := by
  obtain ⟨left, hleft, hempty⟩ :=
    Relation.bindTuples_nil (lists_cursor h).exact.toIndexed ["?x", "?y"]
  have hy := binds_cursor h "?y" (by decide)
  have hleaves : ∀ {op : Operator}, op.Pivots (cursor us).relation twoLinks →
      "?y" ∈ op.pivots twoLinks (cursor us).relation →
        Step.leaves t (cursor us) ⟨op, twoLinks⟩ = (.ok (), left) := by
    intro op hpivots hop
    obtain ⟨tuples, hf⟩ := exists_findsFrom h ht hpivots
    obtain rfl := eq_nil_of_findsFrom h ht hop hf
    exact (Step.leaves_of_found (s := ⟨op, twoLinks⟩) hf.1).trans hleft
  refine ⟨left, hempty, List.forall_mem_cons.mpr ⟨?_, List.forall_mem_singleton.mpr ?_⟩⟩
  · exact hleaves (.ends _ _ _ _ (.inr hy)) (List.mem_filter.mpr ⟨by decide, hy⟩)
  · exact hleaves (.subjectsOfBound _ _ _ _ hy) List.mem_cons_self

end

/-! ### Members -/

/-- The members of a crowd of n: characters of four bytes. -/
def members (n : Nat) : List Uri :=
  (List.range n).map fun i => ⟨"", String.ofList [Char.ofNat (0x10000 + i)]⟩

theorem members_spec {n : Nat} (hpos : 0 < n) (hn : n ≤ 0x10000) : Members (members n) := by
  have hchar : ∀ i < n, (Char.ofNat (0x10000 + i)).toNat = 0x10000 + i := by
    intro i hi
    rw [Char.ofNat, dif_pos (.inr ⟨by omega, by omega⟩)]
    rfl
  have hlen : (members n).length = n := by rw [members, List.length_map, List.length_range]
  refine ⟨?_, ?_, ?_, ?_, ?_⟩
  · exact List.ne_nil_of_length_pos (hlen.symm ▸ hpos)
  · rw [hlen]
    exact hn.trans (by decide)
  · refine List.nodup_range.map_on fun i hi j hj heq => ?_
    have hsame := congrArg (fun u : Uri => u.value.toList) heq
    simp only [String.toList_ofList, List.cons.injEq, and_true] at hsame
    have hsame := congrArg Char.toNat hsame
    rw [hchar i (List.mem_range.mp hi), hchar j (List.mem_range.mp hj)] at hsame
    omega
  · intro hmem
    obtain ⟨i, -, heq⟩ := List.mem_map.mp hmem
    have hlength := congrArg (fun u : Uri => u.value.toList.length) heq
    rw [String.toList_ofList] at hlength
    exact absurd hlength (by decide : 1 ≠ 4)
  · rw [members, List.forall_mem_map]
    intro i hi
    refine ⟨rfl, ?_⟩
    rw [Text.Utf8.size, Text.Utf8.encode, String.toList_ofList, List.flatMap_singleton,
      String.length_utf8EncodeChar, Char.utf8Size_eq_four_iff, UInt32.lt_iff_toNat_lt,
      Char.toNat_val, hchar i (List.mem_range.mp hi)]
    show 65535 < 0x10000 + i
    omega

end Crowd

/-! ## Names with one checksum -/

namespace Tables

/-- Tables with a version of each of two graphs whose names have the same checksum. -/
def oneChecksum : Tables :=
  ((Tables.addVersion default "plumless" 1 [⟨⟨"", "x"⟩, ⟨"", "p"⟩, ⟨"", "y"⟩⟩]).2.addVersion
    "buckeroo" 1 [⟨⟨"", "x"⟩, ⟨"", "p"⟩, ⟨"", "z"⟩⟩]).2

/-- A cursor whose row is the statement of the version that was stored first. -/
def onFirst : Cursor :=
  .onTuples "plumless" 1 ["?s", "?o"]
    [[.ofUri "plumless" ⟨"", "x"⟩ 1, .ofUri "plumless" ⟨"", "y"⟩ 1]]

/-- What is linked in that version, between two variables. -/
def linkedFirst : Term where
  subject := .free "?s"
  link := .path [⟨.ofUri "plumless" ⟨"", "p"⟩ 1, .single⟩]
  object := .free "?o"
  pattern := ⟨⟨"", "?s"⟩, [⟨⟨"", "p"⟩, .single⟩], ⟨"", "?o"⟩⟩

/-- Operators may leave different rows.  From the members of a crowd a step is refused, and the
others, which keep to the link, give the rows up.  Where a version of another graph shares the
place of a statement, its row is given up from the subject and kept from the object. -/
theorem operators_unlike :
    (∃ t c, t = (Tables.addVersion default "g" 1 (Crowd.statements (Crowd.members 65536))).2 ∧
      c = Crowd.cursor (Crowd.members 65536) ∧ Stored [(Checksum.ofText "g", 1)] t ∧
      c.Faithful t ∧ c.relation.Indexed ∧ c.relation.Level ∧
      (∀ v ∈ ["?x", "?y"], c.relation.binds v = true) ∧
      Step.leaves t c ⟨.objectsOfBound, Crowd.twoLinks⟩ =
        (.error (.rowLimit Relation.maxRows), c.relation) ∧
      ∃ left : Relation, left.isEmpty = true ∧ ∀ op ∈ [Operator.ends, .subjectsOfBound],
        Step.leaves t c ⟨op, Crowd.twoLinks⟩ = (.ok (), left)) ∧
    Stored [(Checksum.ofText "buckeroo", 1), (Checksum.ofText "plumless", 1)] oneChecksum ∧
      onFirst.Faithful oneChecksum ∧ onFirst.relation.Indexed ∧ onFirst.relation.Level ∧
      (∀ v ∈ ["?s", "?o"], onFirst.relation.binds v = true) ∧
      (∀ op ∈ [Operator.ends, .objectsOfBound, .subjectsOfBound],
        (Step.leaves oneChecksum onFirst ⟨op, linkedFirst⟩).1.toOption = some ()) ∧
      (∀ op ∈ [Operator.ends, .objectsOfBound],
        (Step.leaves oneChecksum onFirst ⟨op, linkedFirst⟩).2.size = 0) ∧
      (Step.leaves oneChecksum onFirst ⟨.subjectsOfBound, linkedFirst⟩).2.size = 1 := by
  constructor
  · obtain ⟨us, hus⟩ : ∃ us, us = Crowd.members 65536 := ⟨_, rfl⟩
    have hlen : us.length = 65536 := by
      rw [hus, Crowd.members, List.length_map, List.length_range]
    have h : Crowd.Members us := hus ▸ Crowd.members_spec (by decide) (Nat.le_refl _)
    have hfits : FitsMemory (Crowd.statements us) := by
      rw [FitsMemory, Crowd.length_statements, hlen]
      decide
    obtain ⟨t, hadd, ht⟩ := Crowd.exists_holds h hfits
    rw [← hus]
    refine ⟨t, _, ?_, rfl, .cons "g" 1 _ .nil hfits hadd, Crowd.faithful_cursor,
      (Crowd.lists_cursor h).exact.toIndexed, (Crowd.lists_cursor h).level,
      Crowd.binds_cursor h, (Crowd.refused h ht ?_).1, Crowd.exists_leaves h ht⟩
    · rw [hadd]
    · rw [hlen]
      decide
  · have hlists : Relation.Lists ["?s", "?o"] [[.ofUri "plumless" ⟨"", "x"⟩ 1,
        .ofUri "plumless" ⟨"", "y"⟩ 1]] onFirst.relation :=
      Cursor.lists_onTuples (List.cons_ne_nil _ _) (by simp) (by decide)
    have hfirst := Stored.nil.addVersion (by decide) (by decide +kernel : (Tables.addVersion default
      "plumless" 1 [⟨⟨"", "x"⟩, ⟨"", "p"⟩, ⟨"", "y"⟩⟩]).1.toOption = some ())
    refine ⟨hfirst.addVersion (by decide) (by decide +kernel), Cursor.faithful_of_cache rfl,
      hlists.exact.toIndexed, hlists.level, ?_, ?_, ?_, ?_⟩
    · decide +kernel
    · decide +kernel
    · decide +kernel
    · decide +kernel

end Tables

end TripleStore
