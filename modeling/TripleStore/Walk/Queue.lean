import TripleStore.Walk.Segment

/-!
# Following a segment with one queue

A segment can be followed by one loop for all quantifiers.  It has a queue that
starts with the start alone, and takes a key from the front in each round.  The
queue may hold a key several times, and a key that was visited is passed over.
A visit adds what the entity leads to.  Only if the walk may be longer than one
hop, what was not visited yet has to wait at the end of the queue.

A round makes the queue shorter or the set of visited keys larger, so the loop
ends.

This is how segments are followed when they are asked for one by one.  It is the
same as `follow`, which paths use.
-/

namespace TripleStore

namespace Reading

/-- What a visit finds, and what has to wait after it. -/
def visit (d : Direction) (seg : Segment) (k : Key) (e : Entity) (seen reached : Keys) :
    Keys × List Key :=
  let plain := d.statements seg.predicate e
  let all := d.hops seg.predicate e
  match seg.quantifier with
  | .single => (Keys.addAll reached plain, [])
  | .zeroOne => (Keys.addAll (reached.insert k) plain, [])
  | .onePlus => (Keys.addAll reached all, all.filter fun t => !seen.contains t)
  | .zeroPlus => (Keys.addAll (reached.insert k) all, all.filter fun t => !seen.contains t)

/-- Visit the keys of a queue and those that come to wait in it.  The start was read before. -/
def serve (d : Direction) (seg : Segment) (start : Key) (first : Entity) (s : Source) :
    List Key → Keys → Keys → Except Fault Reach × ReadLog
  | [], seen, reached => (.ok ⟨reached, seen⟩, [])
  | k :: queue, seen, reached =>
    if _old : k ∈ seen then serve d seg start first s queue seen reached
    else
      match if k = start then .ok first else (s k).mapError (.brokenWalk k) with
      | .error e => (.error e, [])
      | .ok e =>
        let found := visit d seg k e (seen.insert k) reached
        let (answer, log) :=
          serve d seg start first s (queue ++ found.2) (seen.insert k) found.1
        (answer, if k = start then log else (k, e) :: log)
termination_by queue seen => (Keys.maxSize - seen.size, queue.length)
decreasing_by
  · exact .right _ (Nat.lt_succ_self _)
  · exact .left _ _ (Keys.room_insert _old)

/-- Follow a segment from a start, with one queue. -/
def followQueue (d : Direction) (start : Key) (seg : Segment) : Reading Reach := do
  let first ← entity start
  fun s => serve d seg start first s [start] ∅ ∅

end Reading

end TripleStore
