import Std.Data.ExtTreeMap.Lemmas
import TripleStore.Entity.Record

/-!
# The store

The store keeps one record per key, in the order of keys.  As keys are compared
like their bytes, the keys that share their leading bytes are neighbours, and
all of them can be found from the least one on.

A record is kept with what it decodes to, so it is decoded once and not at every
read.  Any bytes can be put; bytes that are no record are a fault only for those
who ask for the entity.
-/

namespace TripleStore

/-- A record and what it decodes to. -/
structure StoredRecord where
  /-- The bytes of the record. -/
  bytes : List UInt8
  /-- The entity, or why there is none. -/
  entity : Except Fault Entity := Entity.decode bytes
  /-- The entity is the one the bytes decode to. -/
  entity_eq : entity = Entity.decode bytes := by rfl

namespace StoredRecord

/-- A record is settled by its bytes. -/
theorem ext {r s : StoredRecord} (h : r.bytes = s.bytes) : r = s := by
  obtain ⟨b, e, he⟩ := r
  obtain ⟨c, f, hf⟩ := s
  cases h
  cases he
  cases hf
  rfl

/-- The record with the given bytes. -/
def ofBytes (bytes : List UInt8) : StoredRecord := { bytes }

end StoredRecord

/-- Records by key. -/
@[ext]
structure Store where
  /-- The record of each key. -/
  records : Std.ExtTreeMap Key StoredRecord compare

namespace Store

/-- A store without records. -/
def empty : Store := ⟨∅⟩

instance : Inhabited Store := ⟨empty⟩

/-- The record of a key. -/
def record (s : Store) (k : Key) : Except Fault StoredRecord :=
  match s.records[k]? with
  | some r => .ok r
  | none => .error (.notFound k)

/-- The bytes of the record of a key. -/
def read (s : Store) (k : Key) : Except Fault (List UInt8) := (s.record k).map (·.bytes)

/-- The entity of a key. -/
def entity (s : Store) (k : Key) : Except Fault Entity := s.record k >>= (·.entity)

/-- A store with a record put under a key. -/
def put (s : Store) (k : Key) (bytes : List UInt8) : Store :=
  ⟨s.records.insert k (.ofBytes bytes)⟩

/-- A store with the record of an entity put under its key. -/
def putEntity (s : Store) (e : Entity) : Store := s.put e.key e.encode

/-- A store with the records of entities put under their keys. -/
def putEntities (s : Store) (es : List Entity) : Store := es.foldl putEntity s

/-- The number of records. -/
def size (s : Store) : Nat := s.records.size

/-- The least key whose bytes start with the given ones. -/
def leastKey (lead : List UInt8) : Key :=
  Key.ofBytes ((lead ++ List.replicate Key.size 0).take Key.size)

/-- Decide whether the bytes of a key start with the given ones. -/
def startsWith (lead : List UInt8) (k : Key) : Bool := lead.isPrefixOf k.bytes

/-- The records whose keys start with the given bytes, by ascending key. -/
def scan (s : Store) (lead : List UInt8) : List (Key × StoredRecord) :=
  (s.records.toList.dropWhile fun e => compare e.1 (leastKey lead) = .lt).takeWhile fun e =>
    startsWith lead e.1

end Store

end TripleStore
