import Mathlib.Data.List.Forall2

/-!
# Outcomes that are no faults

What is known of the parts of a computation that may fail, if it did not fail.
-/

namespace TripleStore

variable {ε α β : Type}

/-- Two computations in a row succeed if both of them do. -/
theorem bind_eq_ok {x : Except ε α} {f : α → Except ε β} {b : β} :
    x >>= f = .ok b ↔ ∃ a, x = .ok a ∧ f a = .ok b := by
  cases x with
  | error e => exact ⟨nofun, nofun⟩
  | ok a =>
    constructor
    · intro h
      exact ⟨a, rfl, h⟩
    · rintro ⟨a', ha, h⟩
      cases ha
      exact h

/-- Two computations in a row fail if the first does or else the second. -/
theorem bind_eq_error {x : Except ε α} {f : α → Except ε β} {e : ε} :
    x >>= f = .error e ↔ x = .error e ∨ ∃ a, x = .ok a ∧ f a = .error e := by
  cases x with
  | error e' => simp [bind, Except.bind]
  | ok a => simp [bind, Except.bind]

theorem eq_ok_of_toOption {x : Except ε α} {a : α} (h : x.toOption = some a) : x = .ok a := by
  cases x with
  | error e => cases h
  | ok b => rw [Option.some.inj h]

theorem map_eq_ok {x : Except ε α} {f : α → β} {b : β} :
    x.map f = .ok b ↔ ∃ a, x = .ok a ∧ f a = b := by
  cases x with
  | error e => exact ⟨nofun, nofun⟩
  | ok a =>
    constructor
    · intro h
      exact ⟨a, rfl, Except.ok.inj h⟩
    · rintro ⟨a', ha, rfl⟩
      cases ha
      rfl

@[simp] theorem map_eq_error {x : Except ε α} {f : α → β} {e : ε} :
    x.map f = .error e ↔ x = .error e := by
  cases x with
  | error e' => simp [Except.map]
  | ok a => simp [Except.map]

/-- A computation for each entry of a list succeeds if all of them do. -/
theorem mapM_eq_ok {f : α → Except ε β} {as : List α} {bs : List β} :
    as.mapM f = .ok bs ↔ List.Forall₂ (fun a b => f a = .ok b) as bs := by
  induction as generalizing bs with
  | nil =>
    rw [List.mapM_nil, List.forall₂_nil_left_iff]
    exact ⟨fun h => (Except.ok.inj h).symm, fun h => h ▸ rfl⟩
  | cons a as ih =>
    rw [List.mapM_cons, bind_eq_ok, List.forall₂_cons_left_iff]
    constructor
    · rintro ⟨b, hb, h⟩
      obtain ⟨rest, hrest, h⟩ := bind_eq_ok.mp h
      exact ⟨b, rest, hb, ih.mp hrest, (Except.ok.inj h).symm⟩
    · rintro ⟨b, rest, hb, hrest, rfl⟩
      exact ⟨b, hb, bind_eq_ok.mpr ⟨rest, ih.mpr hrest, rfl⟩⟩

/-- Each entry of a list has an answer if there is a list of their answers. -/
theorem mapM_eq_some {f : α → Option β} {as : List α} {bs : List β} :
    as.mapM f = some bs ↔ List.Forall₂ (fun a b => f a = some b) as bs := by
  induction as generalizing bs with
  | nil => simp [eq_comm]
  | cons a as ih =>
    rw [List.mapM_cons, List.forall₂_cons_left_iff]
    cases f a <;> cases has : as.mapM f <;> simp [← ih, has, eq_comm]

/-- A computation for each entry of a list fails as it does for one of them. -/
theorem exists_of_mapM_eq_error {f : α → Except ε β} {as : List α} {e : ε}
    (h : as.mapM f = .error e) : ∃ a ∈ as, f a = .error e := by
  induction as with
  | nil => cases h
  | cons a as ih =>
    rw [List.mapM_cons] at h
    rcases bind_eq_error.mp h with ha | ⟨b, -, h⟩
    · exact ⟨a, List.mem_cons_self, ha⟩
    · rcases bind_eq_error.mp h with has | ⟨bs, -, h⟩
      · obtain ⟨a', hmem, ha'⟩ := ih has
        exact ⟨a', List.mem_cons_of_mem _ hmem, ha'⟩
      · cases h

/-- A computation for each entry of a list succeeds with something. -/
theorem exists_mapM {f : α → Except ε β} {as : List α} (h : ∀ a ∈ as, ∃ b, f a = .ok b) :
    ∃ bs, as.mapM f = .ok bs := by
  induction as with
  | nil => exact ⟨[], rfl⟩
  | cons a as ih =>
    obtain ⟨⟨b, hb⟩, h⟩ := List.forall_mem_cons.mp h
    obtain ⟨bs, hbs⟩ := ih h
    exact ⟨b :: bs, mapM_eq_ok.mpr (.cons hb (mapM_eq_ok.mp hbs))⟩

/-- Computations for the entries of a list that can only succeed with things that a function
relates. -/
theorem mapM_related {γ : Type} {f : α → Except ε β} {g : α → Except ε γ} {φ : β → γ} {as : List α}
    {bs : List β} {cs : List γ} (h : ∀ a ∈ as, ∀ b c, f a = .ok b → g a = .ok c → φ b = c)
    (hf : as.mapM f = .ok bs) (hg : as.mapM g = .ok cs) : bs.map φ = cs := by
  induction as generalizing bs cs with
  | nil =>
    cases hf
    cases hg
    rfl
  | cons a as ih =>
    obtain ⟨hhead, htail⟩ := List.forall_mem_cons.mp h
    obtain ⟨b, rest, hb, hrest, rfl⟩ := List.forall₂_cons_left_iff.mp (mapM_eq_ok.mp hf)
    obtain ⟨c, rest', hc, hrest', rfl⟩ := List.forall₂_cons_left_iff.mp (mapM_eq_ok.mp hg)
    rw [List.map_cons, hhead b c hb hc, ih htail (mapM_eq_ok.mpr hrest) (mapM_eq_ok.mpr hrest')]

/-- Computations for the entries of a list that cannot succeed with different things. -/
theorem mapM_unique {f g : α → Except ε β} {as : List α} {bs bs' : List β}
    (h : ∀ a ∈ as, ∀ b b', f a = .ok b → g a = .ok b' → b = b') (hf : as.mapM f = .ok bs)
    (hg : as.mapM g = .ok bs') : bs = bs' :=
  (List.map_id bs).symm.trans (mapM_related h hf hg)

/-- Computations that can only succeed with the values of a function. -/
theorem eq_map_of_mapM {f : α → Except ε β} {g : α → β} {as : List α} {bs : List β}
    (hg : ∀ a b, f a = .ok b → b = g a) (h : as.mapM f = .ok bs) : bs = as.map g := by
  induction mapM_eq_ok.mp h with
  | nil => rfl
  | cons hab hrest ih => rw [List.map_cons, ← hg _ _ hab, ← ih (mapM_eq_ok.mpr hrest)]

/-- What was made of an entry is in the result. -/
theorem mem_of_mapM {f : α → Except ε β} {as : List α} {bs : List β} (h : as.mapM f = .ok bs)
    {b : β} : b ∈ bs ↔ ∃ a ∈ as, f a = .ok b := by
  induction mapM_eq_ok.mp h with
  | nil => simp
  | @cons a b' as bs hab _ ih =>
    have hb : f a = .ok b ↔ b = b' := by
      rw [hab]
      exact ⟨fun h => (Except.ok.inj h).symm, fun h => h ▸ rfl⟩
    simp only [List.mem_cons, exists_eq_or_imp, hb, ih (mapM_eq_ok.mpr (by assumption))]

/-- Of each entry something was made. -/
theorem exists_of_mapM {f : α → Except ε β} {as : List α} {bs : List β} (h : as.mapM f = .ok bs)
    {a : α} (ha : a ∈ as) : ∃ b ∈ bs, f a = .ok b := by
  induction mapM_eq_ok.mp h with
  | nil => cases ha
  | @cons a' b as bs hab hrest ih =>
    rcases List.mem_cons.mp ha with rfl | ha
    · exact ⟨b, List.mem_cons_self, hab⟩
    · obtain ⟨b', hb', hab'⟩ := ih (mapM_eq_ok.mpr hrest) ha
      exact ⟨b', List.mem_cons_of_mem _ hb', hab'⟩

/-- Computations that differ by what is made of their outcomes. -/
theorem mapM_eq_map {γ : Type} {f : α → Except ε β} {g : α → Except ε γ} {φ : β → γ} {as : List α}
    (h : ∀ a ∈ as, g a = (f a).map φ) : as.mapM g = (as.mapM f).map (List.map φ) := by
  induction as with
  | nil => rfl
  | cons a as ih =>
    obtain ⟨ha, has⟩ := List.forall_mem_cons.mp h
    rw [List.mapM_cons, List.mapM_cons, ha, ih has]
    cases f a with
    | error e => rfl
    | ok b =>
      cases as.mapM f with
      | error e => rfl
      | ok bs => rfl

/-- Lists of which the same was made are the same, if no entries of them are confused. -/
theorem eq_of_mapM {f : α → Except ε β} {as as' : List α} {bs : List β}
    (h : ∀ a ∈ as, ∀ a' ∈ as', ∀ b, f a = .ok b → f a' = .ok b → a = a')
    (hf : as.mapM f = .ok bs) (hf' : as'.mapM f = .ok bs) : as = as' := by
  induction bs generalizing as as' with
  | nil =>
    rw [List.forall₂_nil_right_iff.mp (mapM_eq_ok.mp hf),
      List.forall₂_nil_right_iff.mp (mapM_eq_ok.mp hf')]
  | cons b bs ih =>
    obtain ⟨a, rest, hab, hrest, rfl⟩ := List.forall₂_cons_right_iff.mp (mapM_eq_ok.mp hf)
    obtain ⟨a', rest', hab', hrest', rfl⟩ := List.forall₂_cons_right_iff.mp (mapM_eq_ok.mp hf')
    have hhead : a = a' := h a List.mem_cons_self a' List.mem_cons_self b hab hab'
    have htail : rest = rest' := by
      refine ih (fun x hx x' hx' => ?_) (mapM_eq_ok.mpr hrest) (mapM_eq_ok.mpr hrest')
      exact h x (List.mem_cons_of_mem _ hx) x' (List.mem_cons_of_mem _ hx')
    rw [hhead, htail]

/-- What is made of different entries is different, if no entries are confused. -/
theorem nodup_of_mapM {f : α → Except ε β} {as : List α} {bs : List β} (hnd : as.Nodup)
    (hinj : ∀ a ∈ as, ∀ a' ∈ as, ∀ b, f a = .ok b → f a' = .ok b → a = a')
    (h : as.mapM f = .ok bs) : bs.Nodup := by
  induction mapM_eq_ok.mp h with
  | nil => exact List.nodup_nil
  | @cons a b as bs hab hrest ih =>
    obtain ⟨hnew, hnd⟩ := List.nodup_cons.mp hnd
    have hrest := mapM_eq_ok.mpr hrest
    refine List.nodup_cons.mpr ⟨fun hb => ?_, ih hnd (fun x hx x' hx' => ?_) hrest⟩
    · obtain ⟨a', ha', hab'⟩ := (mem_of_mapM hrest).mp hb
      have heq := hinj a List.mem_cons_self a' (List.mem_cons_of_mem _ ha') b hab hab'
      exact hnew (heq ▸ ha')
    · exact hinj x (List.mem_cons_of_mem _ hx) x' (List.mem_cons_of_mem _ hx')

end TripleStore
