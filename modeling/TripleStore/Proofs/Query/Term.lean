import TripleStore.Proofs.Walk.Links
import TripleStore.Proofs.Walk.Shown
import TripleStore.Query.Term

/-!
# What a term says

A term holds under an assignment if the keys at its ends are linked: by the
statements of the predicate, if that is a variable, or else by the path.  Only
the variables of the term matter, and under an assignment for which the term
holds each of them is a node.
-/

namespace TripleStore

/-- The key at an end of a term. -/
def Slot.value (f : String → Key) : Slot → Key
  | free var => f var
  | bound k => k

/-- The keys that a link relates. -/
def Link.Links (ss : List Statement) (f : String → Key) : Link → Key → Key → Prop
  | free var => Hop ss (f var)
  | path segs => PathLinks ss segs

namespace Term

/-- The ends of a term are linked under an assignment. -/
def Holds (ss : List Statement) (f : String → Key) (t : Term) : Prop :=
  t.link.Links ss f (t.subject.value f) (t.object.value f)

/-- The variables in the positions of a term. -/
def roleVars (t : Term) : List String := t.roles.filterMap id

/-- The keys of a term are among some keys. -/
structure Within (good : Key → Prop) (t : Term) : Prop where
  /-- The subject is. -/
  subject : ∀ k, t.subject = .bound k → good k
  /-- The predicates of the path are. -/
  path : ∀ segs, t.link = .path segs → ∀ seg ∈ segs, good seg.predicate
  /-- The object is. -/
  object : ∀ k, t.object = .bound k → good k

/-- The keys of a term are keys of a place, and its path has a segment. -/
structure Formed (here : UInt32 × UInt64) (t : Term) : Prop
    extends t.Within fun k => k.place = here where
  /-- There is a segment. -/
  nonempty : t.link ≠ .path []

variable {here : UInt32 × UInt64} {ss : List Statement} {f g : String → Key} {t : Term}

theorem mem_roleVars {v : String} :
    v ∈ t.roleVars ↔ t.subject.var? = some v ∨ t.link.var? = some v ∨ t.object.var? = some v := by
  simp [roleVars, roles, eq_comm]

/-- Whether a term holds depends on its variables alone. -/
theorem Holds.congr (h : ∀ v ∈ t.roleVars, f v = g v) : t.Holds ss f ↔ t.Holds ss g := by
  have hslot : ∀ slot : Slot, (∀ v, slot.var? = some v → f v = g v) →
      slot.value f = slot.value g := by
    intro slot hs
    cases slot with
    | free v => exact hs v rfl
    | bound k => rfl
  have hlink : t.link.Links ss f = t.link.Links ss g := by
    cases hl : t.link with
    | free v =>
      show Hop ss (f v) = Hop ss (g v)
      rw [h v (mem_roleVars.mpr (.inr (.inl (by rw [hl]; rfl))))]
    | path segs => rfl
  simp only [Holds]
  rw [hlink, hslot t.subject fun v hv => h v (mem_roleVars.mpr (.inl hv)),
    hslot t.object fun v hv => h v (mem_roleVars.mpr (.inr (.inr hv)))]

/-- The keys at the ends of a term that holds are nodes. -/
theorem Holds.ends_isNode (ht : t.Formed here) (h : t.Holds ss f) :
    IsNode ss (t.subject.value f) ∧ IsNode ss (t.object.value f) := by
  rw [Holds] at h
  cases hl : t.link with
  | free v =>
    rw [hl] at h
    exact ⟨Hop.subject_isNode h, Hop.object_isNode h⟩
  | path segs =>
    rw [hl] at h
    exact PathLinks.isNode (fun hnil => ht.nonempty (hnil ▸ hl)) h

/-- The variables of a term that holds are bound to nodes. -/
theorem Holds.isNode (ht : t.Formed here) (h : t.Holds ss f) {v : String} (hv : v ∈ t.roleVars) :
    IsNode ss (f v) := by
  have hslot : ∀ slot : Slot, slot.var? = some v → slot.value f = f v := by
    intro slot hs
    cases slot with
    | free w => exact congrArg f (Option.some.inj hs)
    | bound k => cases hs
  obtain ⟨hs, ho⟩ := h.ends_isNode ht
  rcases mem_roleVars.mp hv with hv | hv | hv
  · exact hslot _ hv ▸ hs
  · rw [Holds] at h
    cases hl : t.link with
    | free w =>
      rw [hl] at h hv
      obtain rfl : w = v := Option.some.inj hv
      exact Hop.predicate_isNode h
    | path segs =>
      rw [hl] at hv
      cases hv
  · exact hslot _ hv ▸ ho

end Term

end TripleStore
