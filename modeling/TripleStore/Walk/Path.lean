import TripleStore.Walk.Segment

/-!
# Paths

A path is a sequence of segments.  Walking it takes a set of entities, the
frontier, through one segment after the other.  A frontier entity that was
visited on the walk from another one of the same segment is not followed again,
as what it leads to was found then.  A frontier entity that does not exist leads
nowhere.

The pairs that a path links are found from its possible starts.  These are the
subjects of its first predicate.  As long as a segment may stand for no hop, the
subjects of the next predicate are starts too.
-/

namespace TripleStore

namespace Reading

/-! ## Walking a path -/

/-- Follow a segment from one more entity of the frontier. -/
def advance (d : Direction) (seg : Segment) (sofar : Reach) (k : Key) : Reading Reach := do
  if k ∈ sofar.seen then return sofar
  else match ← (follow d k seg).orAbsent with
    | none => return sofar
    | some r => return ⟨sofar.reached ∪ r.reached, sofar.seen ∪ r.seen⟩

/-- Follow a segment from the entities of a list, onto what was found before. -/
def advanceAll (d : Direction) (seg : Segment) : Reach → List Key → Reading Reach
  | sofar, [] => return sofar
  | sofar, k :: ks => do
    let sofar ← advance d seg sofar k
    advanceAll d seg sofar ks

/-- Walk segments from a frontier. -/
def walk (d : Direction) : List Segment → Keys → Reading Keys
  | [], frontier => return frontier
  | seg :: segs, frontier => do
    let r ← advanceAll d seg ⟨∅, ∅⟩ frontier.toList
    walk d segs r.reached

/-- The objects a path leads to from a subject. -/
def objects (subject : Key) (path : List Segment) : Reading Keys :=
  walk .forward path (Keys.ofList [subject])

/-- The subjects from which a path leads to an object. -/
def subjects (object : Key) (path : List Segment) : Reading Keys :=
  walk .backward path.reverse (Keys.ofList [object])

/-! ## Pairs -/

/-- The subjects and objects of a predicate. -/
def predicatePairs (predicate : Key) : Reading (List (Key × Key)) := do
  match ← (entity predicate).orAbsent with
  | none => return []
  | some e => return e.endpointPairs

/-- The entities a path may start from. -/
def pathStarts : List Segment → Reading Keys
  | [] => return ∅
  | seg :: segs => do
    let pairs ← predicatePairs seg.predicate
    let here := Keys.ofList (pairs.map (·.1))
    if seg.quantifier.allowsNoHop then return here ∪ (← pathStarts segs) else return here

/-- The pairs of each of some subjects with the objects a path leads to from it. -/
def pairsFrom (path : List Segment) : List Key → Reading (List (Key × Key))
  | [] => return []
  | k :: ks => do
    let os ← objects k path
    let rest ← pairsFrom path ks
    return os.toList.map (fun o => (k, o)) ++ rest

/-- The subjects and objects that a path links. -/
def pathPairs (path : List Segment) : Reading (List (Key × Key)) := do
  match path with
  | [] => return []
  | [⟨predicate, .single⟩] => predicatePairs predicate
  | path => do
    let starts ← pathStarts path
    pairsFrom path starts.toList

/-! ## Statements around an entity -/

/-- The predicates of the statements from a subject to an object. -/
def predicatesBetween (subject object : Key) : Reading Keys := do
  match ← (entity subject).orAbsent with
  | none => return ∅
  | some e =>
    let pairs := (Entity.statementPairs e.outgoing).filter fun p => p.2 = object
    return Keys.ofList (pairs.map (·.1))

/-- The subjects and predicates of the statements about an object. -/
def statementsInto (object : Key) : Reading (List (Key × Key)) := do
  match ← (entity object).orAbsent with
  | none => return []
  | some e => return (Entity.statementPairs e.incoming).map fun p => (p.2, p.1)

/-- The predicates and objects of the statements of a subject. -/
def statementsFrom (subject : Key) : Reading (List (Key × Key)) := do
  match ← (entity subject).orAbsent with
  | none => return []
  | some e => return Entity.statementPairs e.outgoing

end Reading

end TripleStore
