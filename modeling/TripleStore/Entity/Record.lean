import TripleStore.Entity.Basic
import TripleStore.Fault

/-!
# Entity records

The bytes of an entity are its key and its three lists.  An edge is two keys and
the number of its quantifier, and an endpoint is two keys.
-/

namespace TripleStore

/-- The bytes of an edge. -/
def Edge.encode (e : Edge) : List UInt8 :=
  e.predicate.bytes ++ e.value.bytes ++ Binary.littleEndian 4 e.quantifier.toNat

/-- Take the number of a quantifier. -/
def Quantifier.decode : Binary.Decoder Quantifier := do
  let n ← Binary.word 4
  match Quantifier.ofNat? n with
  | some q => return q
  | none => throw (.unknownTag n Quantifier.count)

/-- Take an edge. -/
def Edge.decode : Binary.Decoder Edge := do
  let predicate ← Key.decode
  let value ← Key.decode
  let quantifier ← Quantifier.decode
  return ⟨predicate, value, quantifier⟩

/-- The bytes of an endpoint. -/
def Endpoint.encode (e : Endpoint) : List UInt8 := e.subject.bytes ++ e.object.bytes

/-- Take an endpoint. -/
def Endpoint.decode : Binary.Decoder Endpoint := do
  let subject ← Key.decode
  let object ← Key.decode
  return ⟨subject, object⟩

namespace Entity

/-- The record of an entity. -/
def encode (e : Entity) : List UInt8 :=
  e.key.bytes ++ Binary.putList Edge.encode e.outgoing ++ Binary.putList Edge.encode e.incoming
    ++ Binary.putList Endpoint.encode e.endpoints

/-- Take an entity. -/
def decoder : Binary.Decoder Entity := do
  let key ← Key.decode
  let outgoing ← Binary.list Edge.decode
  let incoming ← Binary.list Edge.decode
  let endpoints ← Binary.list Endpoint.decode
  return ⟨key, outgoing, incoming, endpoints⟩

/-- The entity a record holds, whatever follows the record. -/
def decode (bs : List UInt8) : Except Fault Entity :=
  (Binary.decode decoder bs).mapError .badRecord

end Entity

end TripleStore
