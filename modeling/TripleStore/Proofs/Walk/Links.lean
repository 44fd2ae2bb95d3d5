import Mathlib.Logic.Relation
import TripleStore.Adjacency

/-!
# What a path links

The meaning of a path over a list of statements, said without walking anything.
A predicate hops from the subject of each of its statements to the object.  A
segment relates what its quantifier makes of these hops, and a path composes the
relations of its segments.

No hop at all relates a node to itself, and a node is whatever occurs in a
statement.  So a key that no statement holds is related to nothing, also by a
segment that may be skipped.

`Direction.walks_reverse` says that walking a path from its end gives the same
pairs as walking it from its start.
-/

open Relation

namespace TripleStore

/-! ## Nodes and hops -/

/-- A key of one of the statements, in whatever position. -/
def IsNode (ss : List Statement) (k : Key) : Prop :=
  ∃ st ∈ ss, k = st.subject ∨ k = st.predicate ∨ k = st.object

/-- A predicate states an object of a subject. -/
def Hop (ss : List Statement) (p s o : Key) : Prop := Statement.mk s p o ∈ ss

theorem Hop.subject_isNode {ss : List Statement} {p s o : Key} (h : Hop ss p s o) :
    IsNode ss s := ⟨_, h, .inl rfl⟩

theorem Hop.predicate_isNode {ss : List Statement} {p s o : Key} (h : Hop ss p s o) :
    IsNode ss p := ⟨_, h, .inr (.inl rfl)⟩

theorem Hop.object_isNode {ss : List Statement} {p s o : Key} (h : Hop ss p s o) :
    IsNode ss o := ⟨_, h, .inr (.inr rfl)⟩

/-! ## Quantifiers -/

/-- What a quantifier makes of a relation between nodes. -/
def Quantifier.Relates (node : Key → Prop) (r : Key → Key → Prop) :
    Quantifier → Key → Key → Prop
  | single => r
  | zeroOne => fun a b => r a b ∨ node a ∧ a = b
  | onePlus => TransGen r
  | zeroPlus => fun a b => node a ∧ ReflTransGen r a b

namespace Quantifier

variable {node : Key → Prop} {r : Key → Key → Prop}

/-- A quantifier relates nodes, if the relation does. -/
theorem Relates.isNode {q : Quantifier} {a b : Key}
    (hr : ∀ a b, r a b → node a ∧ node b) (h : q.Relates node r a b) : node a ∧ node b := by
  have hplus : ∀ {a b}, TransGen r a b → node a ∧ node b := by
    intro a b h
    obtain ⟨c, hac, -⟩ := TransGen.head'_iff.mp h
    obtain ⟨d, -, hdb⟩ := TransGen.tail'_iff.mp h
    exact ⟨(hr a c hac).1, (hr d b hdb).2⟩
  cases q with
  | single => exact hr a b h
  | zeroOne =>
    rcases h with h | ⟨h, rfl⟩
    · exact hr a b h
    · exact ⟨h, h⟩
  | onePlus => exact hplus h
  | zeroPlus =>
    obtain ⟨hn, h⟩ := h
    rcases reflTransGen_iff_eq_or_transGen.mp h with rfl | h
    · exact ⟨hn, hn⟩
    · exact hplus h

/-- The quantified converse is the converse of the quantified relation. -/
theorem relates_swap {q : Quantifier} {a b : Key} (hr : ∀ a b, r a b → node a ∧ node b) :
    q.Relates node (fun a b => r b a) a b ↔ q.Relates node r b a := by
  cases q with
  | single => exact Iff.rfl
  | zeroOne =>
    constructor
    · rintro (h | ⟨h, rfl⟩)
      · exact .inl h
      · exact .inr ⟨h, rfl⟩
    · rintro (h | ⟨h, rfl⟩)
      · exact .inl h
      · exact .inr ⟨h, rfl⟩
  | onePlus => exact transGen_swap
  | zeroPlus =>
    have key : ReflTransGen (fun a b => r b a) a b ↔ ReflTransGen r b a := reflTransGen_swap
    constructor
    · rintro ⟨h, hab⟩
      have hba := key.mp hab
      exact ⟨(Relates.isNode (q := zeroPlus) (r := fun a b => r b a)
        (fun a b h => (hr b a h).symm) ⟨h, hab⟩).2, hba⟩
    · rintro ⟨h, hba⟩
      exact ⟨(Relates.isNode (q := zeroPlus) hr ⟨h, hba⟩).2, key.mpr hba⟩

/-- A quantifier that does not allow no hop relates by at least one. -/
theorem Relates.exists_hop {q : Quantifier} {a b : Key} (hq : q.allowsNoHop = false)
    (h : q.Relates node r a b) : ∃ c, r a c := by
  cases q with
  | single => exact ⟨b, h⟩
  | zeroOne => cases hq
  | onePlus =>
    obtain ⟨c, hac, -⟩ := TransGen.head'_iff.mp h
    exact ⟨c, hac⟩
  | zeroPlus => cases hq

/-- What a quantifier relates is reached by a hop, or is the start. -/
theorem Relates.hop_or_eq {q : Quantifier} {a b : Key} (h : q.Relates node r a b) :
    (∃ c, r a c) ∨ a = b := by
  cases q with
  | single => exact .inl ⟨b, h⟩
  | zeroOne => exact h.imp (fun h => ⟨b, h⟩) And.right
  | onePlus => exact .inl (h.exists_hop rfl)
  | zeroPlus =>
    rcases ReflTransGen.cases_head h.2 with rfl | ⟨c, hac, -⟩
    · exact .inr rfl
    · exact .inl ⟨c, hac⟩

end Quantifier

/-! ## Segments and paths -/

/-- The keys that a segment relates. -/
def Segment.Links (ss : List Statement) (seg : Segment) : Key → Key → Prop :=
  seg.quantifier.Relates (IsNode ss) (Hop ss seg.predicate)

/-- The keys that a path relates: the composition of its segments. -/
def PathLinks (ss : List Statement) : List Segment → Key → Key → Prop
  | [], a, b => a = b
  | seg :: segs, a, b => ∃ c, seg.Links ss a c ∧ PathLinks ss segs c b

theorem Segment.Links.isNode {ss : List Statement} {seg : Segment} {a b : Key}
    (h : seg.Links ss a b) : IsNode ss a ∧ IsNode ss b :=
  Quantifier.Relates.isNode (fun _ _ h => ⟨h.subject_isNode, h.object_isNode⟩) h

/-- A path with a segment relates nodes. -/
theorem PathLinks.isNode {ss : List Statement} {segs : List Segment} {a b : Key}
    (hne : segs ≠ []) (h : PathLinks ss segs a b) : IsNode ss a ∧ IsNode ss b := by
  induction segs generalizing a with
  | nil => exact absurd rfl hne
  | cons seg segs ih =>
    obtain ⟨c, hac, hcb⟩ := h
    refine ⟨hac.isNode.1, ?_⟩
    cases segs with
    | nil => exact hcb ▸ hac.isNode.2
    | cons seg' segs => exact (ih (by simp) hcb).2

theorem pathLinks_singleton {ss : List Statement} {seg : Segment} {a b : Key} :
    PathLinks ss [seg] a b ↔ seg.Links ss a b := by
  constructor
  · rintro ⟨c, h, rfl⟩
    exact h
  · intro h
    exact ⟨b, h, rfl⟩

/-! ## Walking in a direction -/

namespace Direction

/-- One statement of a predicate followed in a direction. -/
def Hops (ss : List Statement) (p : Key) : Direction → Key → Key → Prop
  | forward => Hop ss p
  | backward => fun a b => Hop ss p b a

theorem Hops.isNode {ss : List Statement} {p : Key} {d : Direction} {a b : Key}
    (h : d.Hops ss p a b) : IsNode ss a ∧ IsNode ss b := by
  cases d with
  | forward => exact ⟨Hop.subject_isNode h, Hop.object_isNode h⟩
  | backward => exact ⟨Hop.object_isNode h, Hop.subject_isNode h⟩

theorem Hops.predicate_isNode {ss : List Statement} {p : Key} {d : Direction} {a b : Key}
    (h : d.Hops ss p a b) : IsNode ss p := by
  cases d with
  | forward => exact Hop.predicate_isNode h
  | backward => exact Hop.predicate_isNode h

/-- A segment followed in a direction. -/
def Follows (ss : List Statement) (seg : Segment) (d : Direction) : Key → Key → Prop :=
  seg.quantifier.Relates (IsNode ss) (d.Hops ss seg.predicate)

theorem Follows.isNode {ss : List Statement} {seg : Segment} {d : Direction} {a b : Key}
    (h : d.Follows ss seg a b) : IsNode ss a ∧ IsNode ss b :=
  Quantifier.Relates.isNode (fun _ _ h => h.isNode) h

theorem follows_forward {ss : List Statement} {seg : Segment} {a b : Key} :
    forward.Follows ss seg a b ↔ seg.Links ss a b := Iff.rfl

theorem follows_backward {ss : List Statement} {seg : Segment} {a b : Key} :
    backward.Follows ss seg a b ↔ seg.Links ss b a :=
  Quantifier.relates_swap fun _ _ h => ⟨h.subject_isNode, h.object_isNode⟩

/-- Segments followed in a direction, one after the other. -/
def Walks (ss : List Statement) (d : Direction) : List Segment → Key → Key → Prop
  | [], a, b => a = b
  | seg :: segs, a, b => ∃ c, d.Follows ss seg a c ∧ Walks ss d segs c b

theorem walks_forward {ss : List Statement} {segs : List Segment} {a b : Key} :
    forward.Walks ss segs a b ↔ PathLinks ss segs a b := by
  induction segs generalizing a with
  | nil => exact Iff.rfl
  | cons seg segs ih => simp only [Walks, PathLinks, follows_forward, ih]

theorem walks_append {ss : List Statement} {d : Direction} {xs ys : List Segment} {a b : Key} :
    d.Walks ss (xs ++ ys) a b ↔ ∃ c, d.Walks ss xs a c ∧ d.Walks ss ys c b := by
  induction xs generalizing a with
  | nil =>
    constructor
    · intro h
      exact ⟨a, rfl, h⟩
    · rintro ⟨c, rfl, h⟩
      exact h
  | cons x xs ih =>
    simp only [List.cons_append, Walks, ih]
    constructor
    · rintro ⟨c, hac, e, hce, heb⟩
      exact ⟨e, ⟨c, hac, hce⟩, heb⟩
    · rintro ⟨e, ⟨c, hac, hce⟩, heb⟩
      exact ⟨c, hac, e, hce, heb⟩

/-- A path walked from its end relates the same keys the other way around. -/
theorem walks_reverse {ss : List Statement} {segs : List Segment} {a b : Key} :
    backward.Walks ss segs.reverse b a ↔ PathLinks ss segs a b := by
  induction segs generalizing a with
  | nil => exact eq_comm
  | cons seg segs ih =>
    rw [List.reverse_cons, walks_append]
    constructor
    · rintro ⟨c, hbc, e, hce, rfl⟩
      exact ⟨c, follows_backward.mp hce, ih.mp hbc⟩
    · rintro ⟨c, hac, hcb⟩
      exact ⟨c, ih.mpr hcb, a, follows_backward.mpr hac, rfl⟩

end Direction

end TripleStore
