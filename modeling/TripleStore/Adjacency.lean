import TripleStore.Dictionary
import TripleStore.Entity.Basic
import TripleStore.Walk.Segment

/-!
# Adjacency

The adjacency of a version is its entities by key.  It is made from statements in
two steps.

First every statement is entered three times: as an edge that leaves its subject,
as an edge that arrives at its object, and as an endpoint of its predicate.  All
terms are registered before, so a version with a collision is not made at all.

Then shortcuts are added.  From every entity and over each predicate of its
statements one walk finds all that can be reached in one or more hops.  Each of
these is linked to the entity by a shortcut.  The walks read the statements of
the version as they were stored, not the adjacency that is being extended.

Shortcuts are added walk by walk.  If a walk fails, those of the walks before it
stay.
-/

namespace TripleStore

/-- A statement in a version: the keys of its three terms. -/
@[ext]
structure Statement where
  /-- The key of the subject. -/
  subject : Key
  /-- The key of the predicate. -/
  predicate : Key
  /-- The key of the object. -/
  object : Key
deriving DecidableEq, Repr, Inhabited

/-- The keys of the terms of a triple. -/
def Statement.ofTriple (d : Dictionary) (graph : String) (version : UInt64) (t : Triple) :
    Except Fault Statement := do
  let subject ← d.keyFor graph t.subject version
  let predicate ← d.keyFor graph t.predicate version
  let object ← d.keyFor graph t.object version
  return ⟨subject, predicate, object⟩

/-- The entities of a version. -/
@[ext]
structure Adjacency where
  /-- The entity of each key. -/
  entities : Std.ExtTreeMap Key Entity compare

namespace Adjacency

/-- No entities. -/
def empty : Adjacency := ⟨∅⟩

instance : Inhabited Adjacency := ⟨empty⟩

/-- The number of entities. -/
def size (a : Adjacency) : Nat := a.entities.size

/-- The entities, by ascending key. -/
def toList (a : Adjacency) : List Entity := a.entities.toList.map (·.2)

/-- Sort the lists of every entity and drop repeated entries. -/
def tidy (a : Adjacency) : Adjacency := ⟨a.entities.map fun _ e => e.tidy⟩

/-! ## Statements -/

/-- Change the entity of a key, which is made if there is none. -/
def touch (a : Adjacency) (k : Key) (f : Entity → Entity) : Adjacency :=
  ⟨a.entities.alter k fun e => some (f (e.getD (.new k)))⟩

/-- Enter a statement. -/
def addStatement (a : Adjacency) (s : Statement) : Adjacency :=
  ((a.touch s.subject fun e => e.addOutgoing s.predicate s.object .single).touch
    s.object fun e => e.addIncoming s.predicate s.subject .single).touch
    s.predicate fun e => e.addEndpoint s.subject s.object

/-- The adjacency of statements. -/
def ofStatements (ss : List Statement) : Adjacency := (ss.foldl addStatement empty).tidy

/-- Register the terms of triples and make their adjacency. -/
def compile (graph : String) (version : UInt64) (ts : List Triple) (d : Dictionary) :
    Except Fault (Adjacency × Dictionary) := do
  let d ← d.registerAll graph (ts.flatMap Triple.terms)
  let ss ← ts.mapM (Statement.ofTriple d graph version)
  return (ofStatements ss, d)

/-! ## Shortcuts -/

/-- The walks to make: each entity with each predicate of its statements. -/
def walks (a : Adjacency) : List (Key × Key) :=
  a.entities.toList.flatMap fun p =>
    (p.2.predicates.filter fun q => !(Entity.statements p.2.outgoing q).isEmpty).map fun q =>
      (p.1, q)

/-- Change the entity of a key, if there is one. -/
def modify (a : Adjacency) (k : Key) (f : Entity → Entity) : Adjacency :=
  ⟨a.entities.modify k f⟩

/-- Link an entity to what a walk reached, and count the links onto `n`. -/
def addShortcuts (source predicate : Key) :
    List Key → Adjacency → Nat → Except Fault Nat × Adjacency
  | [], a, n => (.ok n, a)
  | target :: targets, a, n =>
    let a := a.modify source fun e => e.addOutgoing predicate target .onePlus
    if target ∈ a.entities then
      addShortcuts source predicate targets
        (a.modify target fun e => e.addIncoming predicate source .onePlus) (n + 1)
    else (.error (.strayTarget source target), a)

/-- What became of an adjacency whose shortcuts were to be added. -/
structure Extended where
  /-- The number of shortcuts, or what went wrong. -/
  outcome : Except Fault Nat
  /-- The entities, with the shortcuts added so far. -/
  adjacency : Adjacency
  /-- The entities read by the walks. -/
  log : ReadLog

/-- Make walks one after the other and add what they reached.  `n` shortcuts were
added before. -/
def addWalks (s : Source) : List (Key × Key) → Adjacency → Nat → Extended
  | [], a, n => ⟨.ok n, a.tidy, []⟩
  | (source, predicate) :: rest, a, n =>
    match Reading.follow .forward source ⟨predicate, .onePlus⟩ s with
    | (.error e, log) => ⟨.error e, a, log⟩
    | (.ok r, log) =>
      match addShortcuts source predicate r.reached.toList a n with
      | (.error e, a) => ⟨.error e, a, log⟩
      | (.ok n, a) =>
        let last := addWalks s rest a n
        { last with log := log ++ last.log }

/-- Add all shortcuts. -/
def addAllShortcuts (s : Source) (a : Adjacency) : Extended := addWalks s a.walks a 0

end Adjacency

end TripleStore
