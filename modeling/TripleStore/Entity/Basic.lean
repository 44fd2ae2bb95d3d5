import Std.Data.ExtTreeSet.Lemmas
import TripleStore.Key
import TripleStore.Quantifier

/-!
# Entities

An entity is one term in one version of a graph, with everything that touches
it.  An outgoing edge holds a predicate and a target, an incoming edge a
predicate and a source, and an endpoint the subject and object of a statement in
which the entity is the predicate.  Each statement so appears in three entities.

An edge is tagged with a quantifier.  A `single` edge is a statement of the
data.  An edge of any other tag is a shortcut for a walk over several
statements.  Edges are looked up by the term of their predicate, whatever
versions the keys carry.

Adding appends.  `tidy` sorts the lists and drops repeated entries once an
entity is complete.
-/

namespace TripleStore

/-! ## Sorted lists -/

/-- The entries of a list in ascending order, each once. -/
def sortedUnique {α : Type} [Ord α] [Std.TransOrd α] (as : List α) : List α :=
  (Std.ExtTreeSet.ofList as compare).toList

theorem mem_sortedUnique {α : Type} [Ord α] [Std.TransOrd α] [Std.LawfulEqOrd α] [DecidableEq α]
    {as : List α} {a : α} : a ∈ sortedUnique as ↔ a ∈ as := by
  have : Std.LawfulBEqCmp (α := α) compare :=
    ⟨by intro a b; rw [Std.LawfulEqOrd.compare_eq_iff_eq, beq_iff_eq]⟩
  simp [sortedUnique, Std.ExtTreeSet.mem_toList, Std.ExtTreeSet.mem_ofList]

theorem sortedUnique_ascending {α : Type} [Ord α] [Std.TransOrd α] (as : List α) :
    (sortedUnique as).Pairwise fun a b => compare a b = .lt :=
  Std.ExtTreeSet.ordered_toList

/-! ## Edges and endpoints -/

/-- An edge as seen from one of its ends. -/
@[ext]
structure Edge where
  /-- The predicate. -/
  predicate : Key
  /-- The other end. -/
  value : Key
  /-- What the edge stands for. -/
  quantifier : Quantifier
deriving DecidableEq, Repr, Inhabited

namespace Edge

instance : Ord Edge :=
  ⟨compareLex (compareOn Edge.predicate)
    (compareLex (compareOn Edge.value) (compareOn fun e => e.quantifier.toNat))⟩

instance : Std.TransOrd Edge :=
  inferInstanceAs (Std.TransCmp (compareLex (compareOn Edge.predicate)
    (compareLex (compareOn Edge.value) (compareOn fun e : Edge => e.quantifier.toNat))))

theorem compare_eq_iff {d e : Edge} : compare d e = .eq ↔ d = e := by
  show compareLex (compareOn Edge.predicate)
    (compareLex (compareOn Edge.value) (compareOn fun e : Edge => e.quantifier.toNat)) d e = .eq
      ↔ d = e
  rw [compareLex_eq_eq, compareLex_eq_eq]
  simp only [compareOn, Std.LawfulEqOrd.compare_eq_iff_eq, Edge.ext_iff]
  exact ⟨fun h => ⟨h.1, h.2.1, Quantifier.toNat_inj h.2.2⟩, fun h => ⟨h.1, h.2.1, h.2.2 ▸ rfl⟩⟩

instance : Std.LawfulEqOrd Edge := ⟨compare_eq_iff.1⟩

end Edge

/-- The ends of a statement as seen from its predicate. -/
@[ext]
structure Endpoint where
  /-- The subject. -/
  subject : Key
  /-- The object. -/
  object : Key
deriving DecidableEq, Repr, Inhabited

namespace Endpoint

/-- The ends as a pair. -/
def pair (e : Endpoint) : Key × Key := (e.subject, e.object)

instance : Ord Endpoint :=
  ⟨compareLex (compareOn Endpoint.subject) (compareOn Endpoint.object)⟩

instance : Std.TransOrd Endpoint :=
  inferInstanceAs (Std.TransCmp
    (compareLex (compareOn Endpoint.subject) (compareOn Endpoint.object)))

theorem compare_eq_iff {d e : Endpoint} : compare d e = .eq ↔ d = e := by
  show compareLex (compareOn Endpoint.subject) (compareOn Endpoint.object) d e = .eq ↔ d = e
  rw [compareLex_eq_eq]
  simp only [compareOn, Std.LawfulEqOrd.compare_eq_iff_eq, Endpoint.ext_iff]

instance : Std.LawfulEqOrd Endpoint := ⟨compare_eq_iff.1⟩

end Endpoint

/-! ## Entities -/

/-- A term in a version of a graph, with the statements that touch it. -/
@[ext]
structure Entity where
  /-- Its key. -/
  key : Key
  /-- The edges that leave it. -/
  outgoing : List Edge
  /-- The edges that arrive at it. -/
  incoming : List Edge
  /-- The ends of the statements it is the predicate of. -/
  endpoints : List Endpoint
deriving DecidableEq, Repr, Inhabited

namespace Entity

/-- An entity that nothing touches. -/
def new (key : Key) : Entity := ⟨key, [], [], []⟩

/-- One more outgoing edge. -/
def addOutgoing (e : Entity) (predicate target : Key) (q : Quantifier) : Entity :=
  { e with outgoing := e.outgoing ++ [⟨predicate, target, q⟩] }

/-- One more incoming edge. -/
def addIncoming (e : Entity) (predicate source : Key) (q : Quantifier) : Entity :=
  { e with incoming := e.incoming ++ [⟨predicate, source, q⟩] }

/-- One more endpoint. -/
def addEndpoint (e : Entity) (subject object : Key) : Entity :=
  { e with endpoints := e.endpoints ++ [⟨subject, object⟩] }

/-- An entity with its lists sorted and without repeated entries. -/
def tidy (e : Entity) : Entity :=
  { e with
    outgoing := sortedUnique e.outgoing
    incoming := sortedUnique e.incoming
    endpoints := sortedUnique e.endpoints }

/-! ## Looking along edges -/

/-- The other ends of the statements among edges of a predicate. -/
def statements (edges : List Edge) (predicate : Key) : List Key :=
  (edges.filter fun e => e.quantifier = .single && e.predicate.sameName predicate).map Edge.value

/-- The other ends of the shortcuts among edges of a predicate. -/
def shortcuts (edges : List Edge) (predicate : Key) : List Key :=
  (edges.filter fun e => e.quantifier ≠ .single && e.predicate.sameName predicate).map Edge.value

/-- The statements among edges, as pairs of predicate and other end. -/
def statementPairs (edges : List Edge) : List (Key × Key) :=
  (edges.filter fun e => e.quantifier = .single).map fun e => (e.predicate, e.value)

/-- A key unless one of the same term is there already. -/
def addName (ks : List Key) (k : Key) : List Key :=
  if ks.any fun l => l.sameName k then ks else ks ++ [k]

/-- The predicates of all edges, one for each term, in the order of first occurrence. -/
def predicates (e : Entity) : List Key :=
  ((e.outgoing ++ e.incoming).map Edge.predicate).foldl addName []

/-- The objects of a subject, when the entity is the predicate. -/
def objectsOf (e : Entity) (subject : Key) : List Key :=
  (e.endpoints.filter fun p => p.subject = subject).map Endpoint.object

/-- The subjects of an object, when the entity is the predicate. -/
def subjectsOf (e : Entity) (object : Key) : List Key :=
  (e.endpoints.filter fun p => p.object = object).map Endpoint.subject

/-- The subjects and objects, when the entity is the predicate, in ascending order. -/
def endpointPairs (e : Entity) : List (Key × Key) :=
  (sortedUnique e.endpoints).map Endpoint.pair

end Entity

end TripleStore
