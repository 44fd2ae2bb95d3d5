import TripleStore.Proofs.Plan.Steps

/-!
# Terms with other keys

One pattern has a term in each version of a graph.  These terms differ by the keys
of what the pattern names, and by nothing else.  So the terms of a query in one
version are those in another one with the keys replaced, and they are run in the
same order.
-/

namespace TripleStore

/-! ## Replaced keys -/

variable {φ : Key → Key}

/-- A segment with another key. -/
def Segment.rekey (φ : Key → Key) (seg : Segment) : Segment :=
  { seg with predicate := φ seg.predicate }

/-- An end of a term with another key. -/
def Slot.rekey (φ : Key → Key) : Slot → Slot
  | free var => .free var
  | bound k => .bound (φ k)

/-- A link with other keys. -/
def Link.rekey (φ : Key → Key) : Link → Link
  | free var => .free var
  | path segments => .path (segments.map (Segment.rekey φ))

@[simp] theorem Slot.var?_rekey (slot : Slot) : (slot.rekey φ).var? = slot.var? := by
  cases slot with
  | free var => rfl
  | bound k => rfl

@[simp] theorem Slot.rekey_id (slot : Slot) : slot.rekey id = slot := by
  cases slot with
  | free var => rfl
  | bound k => rfl

@[simp] theorem Link.var?_rekey (link : Link) : (link.rekey φ).var? = link.var? := by
  cases link with
  | free var => rfl
  | path segments => rfl

@[simp] theorem Link.rekey_id (link : Link) : link.rekey id = link := by
  cases link with
  | free var => rfl
  | path segments => exact congrArg Link.path (List.map_id segments)

namespace Term

/-- A term with other keys. -/
def rekey (φ : Key → Key) (t : Term) : Term where
  subject := t.subject.rekey φ
  link := t.link.rekey φ
  object := t.object.rekey φ
  pattern := t.pattern

@[simp] theorem rekey_id (t : Term) : t.rekey id = t := by
  simp [rekey]

theorem vars_rekey (t : Term) : (t.rekey φ).vars = t.vars := rfl

@[simp] theorem roleVars_rekey (t : Term) : (t.rekey φ).roleVars = t.roleVars := by
  simp [roleVars, roles, rekey]

/-! ## Terms of one pattern -/

variable {key key' : Uri → Except Fault Key} {p : Pattern}

theorem slotOf_rekey {u : Uri} {slot slot' : Slot}
    (h : u.isVariable = false → ∀ k k', key u = .ok k → key' u = .ok k' → φ k = k')
    (hs : slotOf key u = .ok slot) (hs' : slotOf key' u = .ok slot') :
    slot.rekey φ = slot' := by
  rw [slotOf] at hs hs'
  cases hv : u.isVariable with
  | true =>
    rw [hv, if_pos rfl] at hs hs'
    cases hs
    exact Except.ok.inj hs'
  | false =>
    rw [hv, if_neg Bool.false_ne_true] at hs hs'
    obtain ⟨k, hk, rfl⟩ := map_eq_ok.mp hs
    obtain ⟨k', hk', rfl⟩ := map_eq_ok.mp hs'
    rw [Slot.rekey, h hv k k' hk hk']

theorem segmentOf_rekey {s : PathStep} {seg seg' : Segment}
    (h : s.predicate.isVariable = false →
      ∀ k k', key s.predicate = .ok k → key' s.predicate = .ok k' → φ k = k')
    (hs : segmentOf key p s = .ok seg) (hs' : segmentOf key' p s = .ok seg') :
    seg.rekey φ = seg' := by
  rw [segmentOf] at hs hs'
  cases hv : s.predicate.isVariable with
  | true =>
    rw [hv, if_pos rfl] at hs
    cases hs
  | false =>
    rw [hv, if_neg Bool.false_ne_true] at hs hs'
    obtain ⟨k, hk, hs⟩ := bind_eq_ok.mp hs
    obtain ⟨k', hk', hs'⟩ := bind_eq_ok.mp hs'
    cases hs
    cases hs'
    rw [Segment.rekey, h hv k k' hk hk']

theorem linkOf_rekey {link link' : Link}
    (h : ∀ s ∈ p.path, s.predicate.isVariable = false →
      ∀ k k', key s.predicate = .ok k → key' s.predicate = .ok k' → φ k = k')
    (hl : linkOf key p = .ok link) (hl' : linkOf key' p = .ok link') :
    link.rekey φ = link' := by
  rw [linkOf] at hl hl'
  split at hl
  · cases hl
  · next u hpath =>
    rw [hpath] at hl' h
    have h := h _ (List.mem_singleton_self _)
    simp only at hl' h
    cases hv : u.isVariable with
    | true =>
      rw [hv, if_pos rfl] at hl hl'
      cases hl
      exact Except.ok.inj hl'
    | false =>
      rw [hv, if_neg Bool.false_ne_true] at hl hl'
      obtain ⟨k, hk, rfl⟩ := map_eq_ok.mp hl
      obtain ⟨k', hk', rfl⟩ := map_eq_ok.mp hl'
      rw [← h hv k k' hk hk']
      rfl
  · next hnil hone =>
    have hl' : (p.path.mapM (segmentOf key' p)).map Link.path = .ok link' := by
      split at hl'
      · cases hl'
      · next u hpath => exact absurd hpath (hone u)
      · exact hl'
    obtain ⟨segs, hsegs, rfl⟩ := map_eq_ok.mp hl
    obtain ⟨segs', hsegs', rfl⟩ := map_eq_ok.mp hl'
    rw [Link.rekey, mapM_related (fun s hs _ _ => segmentOf_rekey (h s hs)) hsegs hsegs']

/-- The terms of a pattern differ by the keys of the names in it. -/
theorem ofPattern_rekey {t t' : Term}
    (h : ∀ u ∈ p.terms, u.isVariable = false →
      ∀ k k', key u = .ok k → key' u = .ok k' → φ k = k')
    (ht : ofPattern key p = .ok t) (ht' : ofPattern key' p = .ok t') : t.rekey φ = t' := by
  obtain ⟨link, hlink, ht⟩ := bind_eq_ok.mp ht
  obtain ⟨subject, hsubject, ht⟩ := bind_eq_ok.mp ht
  obtain ⟨object, hobject, ht⟩ := bind_eq_ok.mp ht
  obtain ⟨link', hlink', ht'⟩ := bind_eq_ok.mp ht'
  obtain ⟨subject', hsubject', ht'⟩ := bind_eq_ok.mp ht'
  obtain ⟨object', hobject', ht'⟩ := bind_eq_ok.mp ht'
  cases ht
  cases ht'
  have hpath : ∀ s ∈ p.path, s.predicate ∈ p.terms := by
    intro s hs
    simp only [Pattern.terms, List.cons_append, List.mem_cons, List.mem_append, List.mem_map]
    exact .inr (.inl ⟨s, hs, rfl⟩)
  rw [rekey, linkOf_rekey (fun s hs => h _ (hpath s hs)) hlink hlink',
    slotOf_rekey (h _ (by simp [Pattern.terms])) hsubject hsubject',
    slotOf_rekey (h _ (by simp [Pattern.terms])) hobject hobject']

end Term

/-- The steps of the plans of one query are for the same terms, with other keys. -/
theorem Plan.steps_rekey {key key' : Uri → Except Fault Key} {q : Query} {p p' : Plan}
    (h : ∀ pat ∈ q.patterns, ∀ u ∈ pat.terms, u.isVariable = false →
      ∀ k k', key u = .ok k → key' u = .ok k' → φ k = k')
    (hp : ofQuery key q = .ok p) (hp' : ofQuery key' q = .ok p') :
    p'.steps.map Step.term = (p.steps.map Step.term).map (Term.rekey φ) := by
  obtain ⟨terms, hterms, horder, -⟩ := ofQuery_spec hp
  obtain ⟨terms', hterms', horder', -⟩ := ofQuery_spec hp'
  have heq : terms.map (Term.rekey φ) = terms' :=
    mapM_related (fun pat hpat _ _ => Term.ofPattern_rekey (h pat hpat)) hterms hterms'
  rw [horder, horder', ← heq, order_map Term.vars_rekey, List.map_map, List.map_map]
  rfl

end TripleStore
