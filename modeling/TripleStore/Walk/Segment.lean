import TripleStore.Keys
import TripleStore.Walk.Reading

/-!
# Segments

A segment of a path is a predicate and a quantifier.  Following it from an entity
finds the entities it leads to.  A single hop is a statement of the predicate.  A
hop of a longer walk is a statement or a shortcut.  Zero hops lead to the start.

A walk of any length is explored breadth first.  `explore` has a queue of
entities to visit, the set of those visited, and the set of those that some hop
led to.  Every visit adds a key to the visited ones, and there are finitely many
keys, so the exploration ends.

The start has to exist.  An entity on the way that cannot be read is a fault of
the walk.
-/

namespace TripleStore

/-- A predicate and how many hops over it are meant. -/
@[ext]
structure Segment where
  /-- The predicate. -/
  predicate : Key
  /-- The number of hops. -/
  quantifier : Quantifier
deriving DecidableEq, Repr, Inhabited

/-- The direction of a walk along edges. -/
inductive Direction where
  /-- From subjects to objects. -/
  | forward
  /-- From objects to subjects. -/
  | backward
deriving DecidableEq, Repr, Inhabited

namespace Direction

/-- The edges of an entity that lead in a direction. -/
def edges : Direction → Entity → List Edge
  | forward, e => e.outgoing
  | backward, e => e.incoming

/-- The entities one statement of a predicate away. -/
def statements (d : Direction) (predicate : Key) (e : Entity) : List Key :=
  Entity.statements (d.edges e) predicate

/-- The entities one edge of a predicate away, shortcuts first. -/
def hops (d : Direction) (predicate : Key) (e : Entity) : List Key :=
  Entity.shortcuts (d.edges e) predicate ++ Entity.statements (d.edges e) predicate

end Direction

/-- What a walk found. -/
@[ext]
structure Reach where
  /-- The entities the walk leads to. -/
  reached : Keys
  /-- The entities visited on the way. -/
  seen : Keys

namespace Reading

/-- Visit the entities of a queue and all that hops lead to from there. -/
def explore (hops : Entity → List Key) (s : Source) (queue : List Key) (seen reached : Keys) :
    Except Fault Reach × ReadLog :=
  match _next : queue.dropWhile seen.contains with
  | [] => (.ok ⟨reached, seen⟩, [])
  | k :: rest =>
    match s k with
    | .error e => (.error (.brokenWalk k e), [])
    | .ok e =>
      let targets := hops e
      let waiting := targets.filter fun t => !reached.contains t
      let (answer, log) :=
        explore hops s (rest ++ waiting) (seen.insert k) (Keys.addAll reached targets)
      (answer, (k, e) :: log)
termination_by Keys.maxSize - seen.size
decreasing_by exact Keys.room_insert (Keys.new_of_dropWhile _next)

/-- Explore from a start that was read. -/
def spread (hops : Entity → List Key) (start : Key) (first : Entity) : Reading Reach := fun s =>
  let targets := hops first
  let seen : Keys := (∅ : Keys).insert start
  explore hops s targets seen (Keys.ofList targets)

/-- Follow a segment from a start. -/
def follow (d : Direction) (start : Key) (seg : Segment) : Reading Reach := do
  let first ← entity start
  let here : Keys := (∅ : Keys).insert start
  match seg.quantifier with
  | .single => return ⟨Keys.ofList (d.statements seg.predicate first), here⟩
  | .zeroOne => return ⟨Keys.addAll here (d.statements seg.predicate first), here⟩
  | .onePlus => spread (d.hops seg.predicate) start first
  | .zeroPlus => do
    let r ← spread (d.hops seg.predicate) start first
    return { r with reached := r.reached.insert start }

end Reading

end TripleStore
