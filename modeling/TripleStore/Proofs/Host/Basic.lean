import TripleStore.Host.Basic
import TripleStore.Proofs.Outcome

/-!
# Hosts that keep files

What a snapshot needs of a host whose actions change a state: a file that was
written is read back until it is written again, other files of the directory stay
as they are, and to look changes nothing.

An action comes to an outcome and a state.  Two actions in a row succeed if both
of them do.
-/

namespace TripleStore

namespace Host

variable {σ α β : Type}

/-! ## Performing actions -/

/-- What an action comes to in a state, and the state it leaves. -/
def perform (x : StateM σ α) (s : σ) : α × σ := x.run s

variable {s s' : σ}

theorem perform_bind {x : Action (StateM σ) α} {f : α → Action (StateM σ) β} :
    perform (x >>= f).run s = match perform x.run s with
      | (.ok a, s') => perform (f a).run s'
      | (.error e, s') => (.error e, s') := by
  simp only [perform, ExceptT.run_bind, StateT.run_bind]
  rcases StateT.run (ExceptT.run x) s with ⟨r, s'⟩
  cases r with
  | error e => rfl
  | ok a => rfl

/-- Two actions in a row succeed if both do. -/
theorem perform_bind_eq_ok {x : Action (StateM σ) α} {f : α → Action (StateM σ) β} {b : β} :
    perform (x >>= f).run s = (.ok b, s') ↔
      ∃ a s₁, perform x.run s = (.ok a, s₁) ∧ perform (f a).run s₁ = (.ok b, s') := by
  rw [perform_bind]
  rcases perform x.run s with ⟨r, s₁⟩
  cases r with
  | error e => simp
  | ok a => simp

/-- An action that may fail with a fault of its own succeeds if it does without. -/
theorem perform_orFail_eq_ok {fault : Files.Fault → Fault}
    {x : StateM σ (Except Files.Fault α)} {a : α} :
    perform (orFail fault x : Action (StateM σ) α).run s = (.ok a, s') ↔
      perform x s = (.ok a, s') := by
  have hrun : perform (orFail fault x : Action (StateM σ) α).run s =
      ((perform x s).1.mapError fault, (perform x s).2) := rfl
  rw [hrun]
  rcases perform x s with ⟨r, s₁⟩
  cases r with
  | error e => simp [Except.mapError]
  | ok a => simp [Except.mapError]

/-- What is lifted succeeds. -/
theorem perform_lift {x : StateM σ α} :
    perform (ExceptT.lift x : Action (StateM σ) α).run s =
      (.ok (perform x s).1, (perform x s).2) := rfl

/-! ## Files -/

variable [Host (StateM σ)]

/-- What a file holds in a state. -/
def contents (s : σ) (path : String) : Except Files.Fault (List UInt8) :=
  (perform (readFile path) s).1

/-- A text that names a file in a directory. -/
structure IsName (name : String) : Prop where
  /-- It is not empty. -/
  ne_empty : name ≠ ""
  /-- It is not the directory itself. -/
  ne_here : name ≠ "."
  /-- It is not the directory above. -/
  ne_up : name ≠ ".."
  /-- It leads into no other directory. -/
  no_slash : '/' ∉ name.toList

variable (σ) in
/-- Files are kept as they are written. -/
structure KeepsFiles : Prop where
  /-- Reading a file changes nothing. -/
  reads : ∀ (path : String) (s : σ), perform (readFile path) s = (contents s path, s)
  /-- A file that can be read is present, and to ask changes nothing. -/
  present : ∀ {path : String} {bs : List UInt8} {s : σ}, contents s path = .ok bs →
    perform (isPresent path) s = (true, s)
  /-- A file that was written is read back. -/
  written : ∀ {path : String} {bs : List UInt8} {s s' : σ},
    perform (writeFile path bs) s = (.ok (), s') → contents s' path = .ok bs
  /-- Other files of the directory stay. -/
  kept : ∀ {directory name other : String} {bs cs : List UInt8} {s s' : σ},
    IsName name → IsName other → name ≠ other →
    perform (writeFile (inDirectory directory name) bs) s = (.ok (), s') →
    contents s (inDirectory directory other) = .ok cs →
    contents s' (inDirectory directory other) = .ok cs
  /-- The directory of a file that can be read is there, so nothing is made. -/
  directory : ∀ {directory name : String} {bs : List UInt8} {s : σ}, IsName name →
    contents s (inDirectory directory name) = .ok bs →
    perform (makeDirectory directory) s = (.ok (), s)

end Host

end TripleStore
