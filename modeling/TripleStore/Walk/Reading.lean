import TripleStore.Entity.Basic
import TripleStore.Fault

/-!
# Readings

A walk over a graph is a computation that reads entities.  What it can read is
given as a function from keys.  Its outcome is an answer or a fault, together
with the entities it read on the way.  They are kept also if the walk fails, as
whoever runs it may want to remember them.

So the outcome depends on what can be read and on nothing else.  Two sources that
agree on every key, such as a store and a cache before it, cannot be told apart.

The laws `answer_bind` and `log_bind` describe one computation after another.
-/

namespace TripleStore

/-- What can be read: an entity for each key, or a fault. -/
abbrev Source := Key → Except Fault Entity

/-- The entities read, with the keys they were read under, earliest first. -/
abbrev ReadLog := List (Key × Entity)

/-- A computation that reads entities. -/
def Reading (α : Type) : Type := Source → Except Fault α × ReadLog

namespace Reading

variable {α β : Type}

/-- The answer of a computation. -/
def answer (m : Reading α) (s : Source) : Except Fault α := (m s).1

/-- The entities a computation reads. -/
def log (m : Reading α) (s : Source) : ReadLog := (m s).2

/-- An answer without any reading. -/
def give (a : α) : Reading α := fun _ => (.ok a, [])

/-- A computation and then another, which is left out if the first one fails. -/
def andThen (m : Reading α) (f : α → Reading β) : Reading β := fun s =>
  match m s with
  | (.ok a, log) =>
    let (b, more) := f a s
    (b, log ++ more)
  | (.error e, log) => (.error e, log)

instance : Monad Reading where
  pure := give
  bind := andThen

/-- Fail. -/
def fail (e : Fault) : Reading α := fun _ => (.error e, [])

/-- Read the entity of a key. -/
def entity (k : Key) : Reading Entity := fun s =>
  match s k with
  | .ok e => (.ok e, [(k, e)])
  | .error e => (.error e, [])

/-- A computation for which a missing entity is no fault, but the answer none. -/
def orAbsent (m : Reading α) : Reading (Option α) := fun s =>
  match m s with
  | (.ok a, log) => (.ok (some a), log)
  | (.error e, log) => (if e.isNotFound then .ok none else .error e, log)

/-! ## Laws -/

@[simp] theorem answer_pure (a : α) (s : Source) : (pure a : Reading α).answer s = .ok a := rfl

@[simp] theorem log_pure (a : α) (s : Source) : (pure a : Reading α).log s = [] := rfl

/-- The answer of two computations in a row. -/
theorem answer_bind (m : Reading α) (f : α → Reading β) (s : Source) :
    (m >>= f).answer s = m.answer s >>= fun a => (f a).answer s := by
  show (andThen m f s).1 = (m s).1 >>= fun a => (f a s).1
  unfold andThen
  split <;> simp_all [bind, Except.bind]

/-- What two computations in a row read. -/
theorem log_bind (m : Reading α) (f : α → Reading β) (s : Source) :
    (m >>= f).log s = m.log s ++ match m.answer s with
      | .ok a => (f a).log s
      | .error _ => [] := by
  show (andThen m f s).2 = (m s).2 ++ match (m s).1 with
    | .ok a => (f a s).2
    | .error _ => []
  unfold andThen
  split <;> simp_all

@[simp] theorem answer_entity (k : Key) (s : Source) : (entity k).answer s = s k := by
  unfold answer entity
  split <;> simp_all

theorem answer_orAbsent (m : Reading α) (s : Source) :
    m.orAbsent.answer s = match m.answer s with
      | .ok a => .ok (some a)
      | .error e => if e.isNotFound then .ok none else .error e := by
  unfold answer orAbsent
  split <;> simp_all

/-- Whatever was read is what the source gives for the key. -/
theorem entity_of_mem_log_entity {k l : Key} {e : Entity} {s : Source}
    (h : (l, e) ∈ (entity k).log s) : s l = .ok e := by
  unfold log entity at h
  split at h <;> simp_all

end Reading

end TripleStore
