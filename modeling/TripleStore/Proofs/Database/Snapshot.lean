import TripleStore.Database.Snapshot
import TripleStore.Proofs.Entity.Record

/-!
# Snapshots are read back

The files of a snapshot are made of maps, and maps within maps.  Whatever order
the entries of each map are written in, the map is read back, because its entries
have different keys and so none of them replaces another.

Each part has its spelling and the decoder that reads it.  From these the three
files are put together.  The writers write one of the spellings: that in which
all entries ascend.
-/

namespace TripleStore

namespace Snapshot

open Binary

/-! ## Maps -/

section Maps

variable {α β : Type} [Ord α] [Std.TransOrd α] {m : Std.ExtTreeMap α β compare}
  {entries : List (α × β)} {key : Spelling α} {value : Spelling β}

/-- A map: the list of its entries in any order. -/
def anyOrder (key : Spelling α) (value : Spelling β) : Spelling (Std.ExtTreeMap α β compare) :=
  fun m bs => ∃ entries, entries.Perm m.toList ∧ Spelling.list (Spelling.pair key value) entries bs

/-- The writer of maps writes the entries in ascending order. -/
theorem anyOrder_putMap {putKey : α → List UInt8} {putValue : β → List UInt8}
    (hk : ∀ k, key k (putKey k)) (hv : ∀ p ∈ m.toList, value p.2 (putValue p.2)) :
    anyOrder key value m (putMap putKey putValue m) :=
  ⟨m.toList, .refl _, Spelling.list_putList fun p hp => ⟨_, _, hk p.1, hv p hp, rfl⟩⟩

variable [Std.LawfulEqOrd α] [DecidableEq α]

/-- The entries of a map make it up again, in whatever order they come. -/
theorem mapOf_perm (h : entries.Perm m.toList) : mapOf entries = m := by
  have : Std.LawfulBEqCmp (α := α) compare :=
    ⟨by intro a b; rw [Std.LawfulEqOrd.compare_eq_iff_eq, beq_iff_eq]⟩
  have hof : mapOf entries = Std.ExtTreeMap.ofList entries compare :=
    Std.ExtTreeMap.ofList_eq_foldl.symm
  have hdistinct : entries.Pairwise fun p q => ¬ compare p.1 q.1 = .eq := by
    refine (h.pairwise_iff fun {p q} hpq hqp => hpq ?_).mpr Std.ExtTreeMap.distinct_keys_toList
    exact Std.OrientedCmp.eq_symm hqp
  have hmem : ∀ p, p ∈ entries ↔ m[p.1]? = some p.2 := fun p =>
    h.mem_iff.trans Std.ExtTreeMap.mem_toList_iff_getElem?_eq_some
  rw [hof]
  refine Std.ExtTreeMap.ext_getElem? fun k => ?_
  cases hk : m[k]? with
  | some v =>
    exact Std.ExtTreeMap.getElem?_ofList_of_mem Std.ReflCmp.compare_self hdistinct
      ((hmem (k, v)).mpr hk)
  | none =>
    refine Std.ExtTreeMap.getElem?_ofList_of_contains_eq_false ?_
    rw [← Bool.not_eq_true, List.contains_iff_mem, List.mem_map]
    rintro ⟨p, hp, rfl⟩
    rw [(hmem p).mp hp] at hk
    cases hk

/-- A map is read back whatever order it was written in. -/
theorem reads_anyOrder {takeKey : Decoder α} {takeValue : Decoder β} (hk : key.Reads takeKey)
    (hv : value.Reads takeValue) :
    (anyOrder key value).Reads (takeMap takeKey takeValue) where
  pos := by
    rintro m bs ⟨entries, -, hbs⟩
    exact (hk.pair hv).list.pos entries bs hbs
  read := by
    rintro m bs rest ⟨entries, hperm, hbs⟩ hlen
    rw [takeMap, bind_of_ok ((hk.pair hv).list.read entries bs rest hbs hlen), mapOf_perm hperm]
    rfl

end Maps

/-! ## Parts -/

theorem reads_key : (Spelling.written Key.bytes).Reads Key.decode where
  pos := by
    rintro k bs rfl
    rw [Key.length_bytes]
    decide
  read := by
    rintro k bs rest rfl -
    exact Key.canonical.read k rest trivial

/-- A term: its namespace and its value. -/
def spelledUri : Spelling Uri :=
  Spelling.both (Spelling.written putText) (Spelling.written putText) Uri.ns Uri.value

theorem reads_uri : spelledUri.Reads takeUri :=
  Spelling.reads_text.both Spelling.reads_text fun _ => rfl

theorem spelledUri_put (u : Uri) : spelledUri u (putUri u) := ⟨_, _, rfl, rfl, rfl⟩

theorem reads_checksum : (Spelling.written putChecksum).Reads takeChecksum where
  pos := by
    rintro w bs rfl
    rw [putChecksum, length_bigEndian]
    decide
  read := by
    rintro w bs rest rfl -
    have hlt : w.toNat < capacity 4 := w.toNat_lt
    have htake : take 4 (bigEndian 4 w.toNat ++ rest) = .ok (bigEndian 4 w.toNat, rest) := by
      have h := take_append (bigEndian 4 w.toNat) rest
      rwa [length_bigEndian] at h
    have hword : UInt32.ofNat (ofBigEndian (bigEndian 4 w.toNat)) = w := by
      rw [ofBigEndian_bigEndian, Nat.mod_eq_of_lt hlt, UInt32.ofNat_toNat]
    rw [putChecksum, takeChecksum, bind_of_ok htake, hword]
    rfl

/-- A record: its bytes. -/
def spelledRecord : Spelling StoredRecord := fun r => Spelling.written putBytes r.bytes

theorem reads_record : spelledRecord.Reads (StoredRecord.ofBytes <$> Binary.bytes) where
  pos r := Spelling.reads_bytes.pos r.bytes
  read := by
    intro r bs rest h hlen
    have hread : (StoredRecord.ofBytes <$> Binary.bytes) (bs ++ rest) =
        .ok (StoredRecord.ofBytes r.bytes, rest) :=
      bind_of_ok (f := fun bs => pure (StoredRecord.ofBytes bs))
        (Spelling.reads_bytes.read r.bytes bs rest h hlen)
    rw [hread]
    exact congrArg (fun s => Except.ok (s, rest)) (StoredRecord.ext rfl)

/-- A number that has eight bytes. -/
def spelledNumber : Spelling Nat := fun n bs => n < capacity 8 ∧ bs = putNat n

theorem reads_number : spelledNumber.Reads (word 8) where
  pos := by
    rintro n bs ⟨-, rfl⟩
    rw [putNat, length_littleEndian]
    decide
  read := by
    rintro n bs rest ⟨hn, rfl⟩ -
    exact word_append hn rest

/-- What the catalogue says about a graph: its versions and its prefixes, the latter in any
order. -/
def spelledGraphInfo : Spelling GraphInfo :=
  Spelling.both (Spelling.list spelledNumber)
    (anyOrder (Spelling.written putText) (Spelling.written putText))
    (fun info => info.versions.map UInt64.toNat) GraphInfo.namespaces

theorem reads_graphInfo : spelledGraphInfo.Reads takeGraphInfo := by
  have hversions : ∀ vs : List UInt64, (vs.map UInt64.toNat).map UInt64.ofNat = vs := by
    intro vs
    rw [List.map_map]
    exact List.map_id'' (fun v => UInt64.ofNat_toNat) vs
  refine reads_number.list.both (reads_anyOrder Spelling.reads_text Spelling.reads_text)
    fun info => ?_
  rw [hversions]

/-! ## Files -/

/-- The records. -/
def spelledStore : Spelling Store := fun s =>
  anyOrder (Spelling.written Key.bytes) spelledRecord s.records

/-- The terms and their keys. -/
def spelledDictionary : Spelling Dictionary :=
  Spelling.both (anyOrder (Spelling.written putChecksum) spelledUri)
    (anyOrder (Spelling.written putText) (anyOrder spelledUri (Spelling.written Key.bytes)))
    Dictionary.terms Dictionary.keys

/-- The catalogue. -/
def spelledCatalogue : Spelling Catalogue := anyOrder (Spelling.written putText) spelledGraphInfo

theorem decodeStore_eq {s : Store} {bs : List UInt8} (h : spelledStore s bs)
    (hlen : bs.length < capacity 8) : decodeStore bs = .ok s := by
  rw [decodeStore, (reads_anyOrder reads_key reads_record).decode h hlen]
  rfl

theorem reads_dictionary : spelledDictionary.Reads takeDictionary :=
  (reads_anyOrder reads_checksum reads_uri).both
    (reads_anyOrder Spelling.reads_text (reads_anyOrder reads_uri reads_key)) fun _ => rfl

theorem decodeDictionary_eq {d : Dictionary} {bs : List UInt8} (h : spelledDictionary d bs)
    (hlen : bs.length < capacity 8) : decodeDictionary bs = .ok d := by
  rw [decodeDictionary, reads_dictionary.decode h hlen]
  rfl

theorem decodeCatalogue_eq {c : Catalogue} {bs : List UInt8} (h : spelledCatalogue c bs)
    (hlen : bs.length < capacity 8) : decodeCatalogue bs = .ok c := by
  rw [decodeCatalogue, (reads_anyOrder Spelling.reads_text reads_graphInfo).decode h hlen]
  rfl

/-! ## Writers -/

theorem spelledStore_encode (s : Store) : spelledStore s (encodeStore s) :=
  anyOrder_putMap (fun _ => rfl) fun _ _ => rfl

theorem spelledDictionary_encode (d : Dictionary) : spelledDictionary d (encodeDictionary d) :=
  ⟨_, _, anyOrder_putMap (fun _ => rfl) fun p _ => spelledUri_put p.2,
    anyOrder_putMap (fun _ => rfl) fun _ _ => anyOrder_putMap spelledUri_put fun _ _ => rfl, rfl⟩

theorem spelledGraphInfo_put (info : GraphInfo) : spelledGraphInfo info (putGraphInfo info) := by
  refine ⟨_, _, ?_, anyOrder_putMap (fun _ => rfl) fun _ _ => rfl, rfl⟩
  have hput : putList (fun v : UInt64 => putNat v.toNat) info.versions =
      putList putNat (info.versions.map UInt64.toNat) := by
    rw [putList, putList, List.length_map, List.flatMap_map]
  rw [hput]
  refine Spelling.list_putList fun n hn => ⟨?_, rfl⟩
  obtain ⟨v, -, rfl⟩ := List.mem_map.mp hn
  exact v.toNat_lt

theorem spelledCatalogue_encode (c : Catalogue) : spelledCatalogue c (encodeCatalogue c) :=
  anyOrder_putMap (fun _ => rfl) fun p _ => spelledGraphInfo_put p.2

end Snapshot

end TripleStore
