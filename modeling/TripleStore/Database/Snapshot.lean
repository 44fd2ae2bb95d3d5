import TripleStore.Database.Basic

/-!
# Snapshots

A snapshot of a database is three files: its records, its terms, and its
catalogue.  Each of them is made of maps, and a map is the list of its entries.
Reading takes the entries in any order.  If a key is there twice the later entry
counts.

The file of the terms holds two maps, from checksums to terms, and from graphs to
the keys of their terms.
-/

namespace TripleStore

namespace Snapshot

/-! ## Parts -/

/-- The map of entries, of which later ones count. -/
def mapOf {α β : Type} [Ord α] [Std.TransOrd α] (entries : List (α × β)) :
    Std.ExtTreeMap α β compare :=
  entries.foldl (fun m p => m.insert p.1 p.2) ∅

/-- The bytes of a map. -/
def putMap {α β : Type} [Ord α] [Std.TransOrd α] (key : α → List UInt8) (value : β → List UInt8)
    (m : Std.ExtTreeMap α β compare) : List UInt8 :=
  Binary.putList (Binary.putPair key value) m.toList

/-- Take a map. -/
def takeMap {α β : Type} [Ord α] [Std.TransOrd α] (key : Binary.Decoder α)
    (value : Binary.Decoder β) : Binary.Decoder (Std.ExtTreeMap α β compare) := do
  return mapOf (← Binary.list (Binary.pair key value))

/-- The bytes of a term. -/
def putUri (u : Uri) : List UInt8 := Binary.putText u.ns ++ Binary.putText u.value

/-- Take a term. -/
def takeUri : Binary.Decoder Uri := do
  let ns ← Binary.text
  let value ← Binary.text
  return ⟨ns, value⟩

/-- The bytes of a checksum, highest first. -/
def putChecksum (w : UInt32) : List UInt8 := Binary.bigEndian 4 w.toNat

/-- Take a checksum. -/
def takeChecksum : Binary.Decoder UInt32 := do
  return UInt32.ofNat (Binary.ofBigEndian (← Binary.take 4))

/-- The bytes of what the catalogue says about a graph. -/
def putGraphInfo (info : GraphInfo) : List UInt8 :=
  Binary.putList (fun v : UInt64 => Binary.putNat v.toNat) info.versions
    ++ putMap Binary.putText Binary.putText info.namespaces

/-- Take what the catalogue says about a graph. -/
def takeGraphInfo : Binary.Decoder GraphInfo := do
  let versions ← Binary.list (Binary.word 8)
  let namespaces ← takeMap Binary.text Binary.text
  return ⟨versions.map UInt64.ofNat, namespaces⟩

/-! ## Files -/

/-- The bytes of records. -/
def encodeStore (s : Store) : List UInt8 :=
  putMap Key.bytes (fun r : StoredRecord => Binary.putBytes r.bytes) s.records

/-- Records from their bytes. -/
def decodeStore (bs : List UInt8) : Except Fault Store :=
  ((Binary.decode (takeMap Key.decode (StoredRecord.ofBytes <$> Binary.bytes)) bs).map
    Store.mk).mapError .badSnapshot

/-- The bytes of terms. -/
def encodeDictionary (d : Dictionary) : List UInt8 :=
  putMap putChecksum putUri d.terms ++ putMap Binary.putText (putMap putUri Key.bytes) d.keys

/-- Take terms. -/
def takeDictionary : Binary.Decoder Dictionary := do
  let terms ← takeMap takeChecksum takeUri
  let keys ← takeMap Binary.text (takeMap takeUri Key.decode)
  return ⟨terms, keys⟩

/-- Terms from their bytes. -/
def decodeDictionary (bs : List UInt8) : Except Fault Dictionary :=
  (Binary.decode takeDictionary bs).mapError .badDictionary

/-- The bytes of a catalogue. -/
def encodeCatalogue (c : Catalogue) : List UInt8 := putMap Binary.putText putGraphInfo c

/-- A catalogue from its bytes. -/
def decodeCatalogue (bs : List UInt8) : Except Fault Catalogue :=
  (Binary.decode (takeMap Binary.text takeGraphInfo) bs).mapError .badSnapshot

end Snapshot

end TripleStore
