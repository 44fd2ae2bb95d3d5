import Std.Data.ExtTreeMap.Lemmas
import TripleStore.Fault

/-!
# The dictionary

Keys hold checksums and not terms.  The dictionary leads back from a checksum to
its term, and keeps the key of each term of each graph, at version zero.

A checksum belongs to the first term that was registered under it.  Registering
another term with the same checksum fails, so a checksum never stands for two
terms.  A batch is registered as a whole or, if two of its terms or a term and
the dictionary collide, not at all.
-/

namespace TripleStore

/-- The terms behind checksums, and the keys of terms. -/
@[ext]
structure Dictionary where
  /-- The term of each checksum. -/
  terms : Std.ExtTreeMap UInt32 Uri compare
  /-- The key, at version zero, of each term of each graph. -/
  keys : Std.ExtTreeMap String (Std.ExtTreeMap Uri Key compare) compare

namespace Dictionary

/-- A dictionary without terms. -/
def empty : Dictionary := ⟨∅, ∅⟩

instance : Inhabited Dictionary := ⟨empty⟩

/-- The number of terms. -/
def size (d : Dictionary) : Nat := d.terms.size

/-- The checksum of a term. -/
def checksum (u : Uri) : UInt32 := Checksum.ofText u.hashInput

/-- The key of a registered term, at version zero. -/
def key? (d : Dictionary) (graph : String) (u : Uri) : Option Key :=
  d.keys[graph]?.bind fun m => m[u]?

/-- The term of a key. -/
def term? (d : Dictionary) (k : Key) : Option Uri := d.terms[k.name]?

/-- The term of a key that has to have one. -/
def term (d : Dictionary) (k : Key) : Except Fault Uri :=
  match d.term? k with
  | some u => .ok u
  | none => .error (.notFound k)

/-- Fail if a table of terms gives a checksum to another term. -/
def checkFree (terms : Std.ExtTreeMap UInt32 Uri compare) (hash : UInt32) (u : Uri) :
    Except Fault Unit :=
  match terms[hash]? with
  | some v => if v = u then .ok () else .error (.collision v u)
  | none => .ok ()

/-- The key of a term at a version.  The term need not be registered, but its
checksum must not belong to another term. -/
def keyFor (d : Dictionary) (graph : String) (u : Uri) (version : UInt64) : Except Fault Key :=
  match d.key? graph u with
  | some k => .ok (k.atVersion version)
  | none => do
    let k := Key.ofUri graph u version
    checkFree d.terms k.name u
    return k

/-- A dictionary with a term and its key, whatever was there before. -/
def enter (d : Dictionary) (graph : String) (u : Uri) (k : Key) : Dictionary where
  terms := d.terms.insert k.name u
  keys := d.keys.alter graph fun m => some ((m.getD ∅).insert u k)

/-- Register a term of a graph.  The answer is its key at version zero. -/
def register (d : Dictionary) (graph : String) (u : Uri) : Except Fault (Key × Dictionary) :=
  match d.key? graph u with
  | some k => .ok (k, d)
  | none => do
    let k := Key.ofUri graph u 0
    checkFree d.terms k.name u
    return (k, d.enter graph u k)

/-- Collect the terms of a batch by checksum, onto those collected before. -/
def stage (d : Dictionary) (staged : Std.ExtTreeMap UInt32 Uri compare) :
    List Uri → Except Fault (Std.ExtTreeMap UInt32 Uri compare)
  | [] => .ok staged
  | u :: us => do
    let hash := checksum u
    checkFree d.terms hash u
    checkFree staged hash u
    stage d (staged.insert hash u) us

/-- Register terms one by one. -/
def registerEach (d : Dictionary) (graph : String) : List Uri → Except Fault Dictionary
  | [] => .ok d
  | u :: us => do
    let (_, d) ← d.register graph u
    registerEach d graph us

/-- Register a batch of terms of a graph. -/
def registerAll (d : Dictionary) (graph : String) (us : List Uri) : Except Fault Dictionary := do
  let staged ← stage d ∅ us
  registerEach d graph (staged.toList.map (·.2))

end Dictionary

end TripleStore
