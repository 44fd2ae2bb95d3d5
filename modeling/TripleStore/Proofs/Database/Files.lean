import TripleStore.Database.Files
import TripleStore.Proofs.Database.Insert
import TripleStore.Proofs.Database.Snapshot
import TripleStore.Proofs.Host.FileTree

/-!
# Databases are opened as they were written

The three files of a snapshot are written one after the other.  Maps may be
written in any order, so a database has many snapshots, of which `flush` writes
one.  On a host that keeps files the database is restored from any of them, with
all its records, its terms, its catalogue and its directory.  So whatever is done
with it afterwards comes to what it would have come to before.

A configuration whose graphs are all in the catalogue opens the database as it is
and loads nothing.
-/

namespace TripleStore

namespace Snapshot

/-- The bytes of the files of a snapshot. -/
structure Files where
  /-- The records. -/
  store : List UInt8
  /-- The terms. -/
  dictionary : List UInt8
  /-- The catalogue. -/
  catalogue : List UInt8

/-- The files are a snapshot of a database. -/
structure Files.Of (f : Files) (db : Database) : Prop where
  /-- The records are written. -/
  store : spelledStore db.tables.store f.store
  /-- The terms are written. -/
  dictionary : spelledDictionary db.tables.dictionary f.dictionary
  /-- The catalogue is written. -/
  catalogue : spelledCatalogue db.catalogue f.catalogue

/-- Eight bytes can say how long each of the files is. -/
structure Files.Short (f : Files) : Prop where
  /-- The file of the records is not too long. -/
  store : f.store.length < Binary.capacity 8
  /-- The file of the terms is not too long. -/
  dictionary : f.dictionary.length < Binary.capacity 8
  /-- The file of the catalogue is not too long. -/
  catalogue : f.catalogue.length < Binary.capacity 8

/-- Write the files of a snapshot into a directory. -/
def Files.write {m : Type → Type} [Monad m] [Host m] (f : Files) (directory : String) :
    Host.Action m Unit := do
  Host.orFail .file (Host.writeFile (Database.storeFile directory) f.store)
  Host.orFail .file (Host.writeFile (Database.dictionaryFile directory) f.dictionary)
  Host.orFail .file (Host.writeFile (Database.catalogueFile directory) f.catalogue)

end Snapshot

namespace Database

open Host

variable {σ : Type} [Host (StateM σ)] {db : Database} {directory : String} {f : Snapshot.Files}
  {s s' : σ}

/-- The files that are written when all entries ascend. -/
def snapshot (db : Database) : Snapshot.Files where
  store := Snapshot.encodeStore db.tables.store
  dictionary := Snapshot.encodeDictionary db.tables.dictionary
  catalogue := Snapshot.encodeCatalogue db.catalogue

/-- It is a snapshot of the database. -/
theorem snapshot_of (db : Database) : db.snapshot.Of db where
  store := Snapshot.spelledStore_encode _
  dictionary := Snapshot.spelledDictionary_encode _
  catalogue := Snapshot.spelledCatalogue_encode _

/-- A flush writes this snapshot. -/
theorem flush_eq {m : Type → Type} [Monad m] [Host m] (h : db.directory = some directory) :
    (db.flush : Action m Unit) = db.snapshot.write directory := by
  rw [flush, h]
  rfl

/-! ## Writing -/

theorem isName_store : IsName "entities.bin" := ⟨by decide, by decide, by decide, by decide⟩

theorem isName_dictionary : IsName "dictionary.bin" := ⟨by decide, by decide, by decide, by decide⟩

theorem isName_catalogue : IsName "catalog.bin" := ⟨by decide, by decide, by decide, by decide⟩

/-- The files of a snapshot are in a directory. -/
structure Kept (s : σ) (directory : String) (f : Snapshot.Files) : Prop where
  /-- The file of the records is. -/
  store : contents s (storeFile directory) = .ok f.store
  /-- The file of the terms is. -/
  dictionary : contents s (dictionaryFile directory) = .ok f.dictionary
  /-- The file of the catalogue is. -/
  catalogue : contents s (catalogueFile directory) = .ok f.catalogue

/-- All three files are there when they have been written. -/
theorem kept_of_write (hhost : KeepsFiles σ)
    (h : perform (f.write directory).run s = (.ok (), s')) : Kept s' directory f := by
  obtain ⟨⟨⟩, s₁, hstore, h⟩ := perform_bind_eq_ok.mp h
  obtain ⟨⟨⟩, s₂, hdictionary, hcatalogue⟩ := perform_bind_eq_ok.mp h
  rw [perform_orFail_eq_ok] at hstore hdictionary hcatalogue
  constructor
  · have h₂ := hhost.kept isName_dictionary isName_store (by decide) hdictionary
      (hhost.written hstore)
    exact hhost.kept isName_catalogue isName_store (by decide) hcatalogue h₂
  · exact hhost.kept isName_catalogue isName_dictionary (by decide) hcatalogue
      (hhost.written hdictionary)
  · exact hhost.written hcatalogue

/-- A snapshot is written into a directory that can take its files. -/
theorem exists_write {t : FileTree} (f : Snapshot.Files)
    (hstore : t.Writable directory "entities.bin")
    (hdictionary : t.Writable directory "dictionary.bin")
    (hcatalogue : t.Writable directory "catalog.bin") :
    ∃ t', perform (f.write directory : Action (StateM FileTree) Unit).run t = (.ok (), t') := by
  obtain ⟨t₁, h₁, hkeep₁⟩ := hstore.writeFile f.store
  obtain ⟨t₂, h₂, hkeep₂⟩ := (hkeep₁ _ hdictionary).writeFile f.dictionary
  obtain ⟨t₃, h₃, -⟩ := (hkeep₂ _ (hkeep₁ _ hcatalogue)).writeFile f.catalogue
  rw [← FileTree.perform_writeFile] at h₁ h₂ h₃
  refine ⟨t₃, perform_bind_eq_ok.mpr ⟨(), t₁, perform_orFail_eq_ok.mpr h₁, ?_⟩⟩
  exact perform_bind_eq_ok.mpr ⟨(), t₂, perform_orFail_eq_ok.mpr h₂, perform_orFail_eq_ok.mpr h₃⟩

/-! ## Reading -/

/-- A file that is there is read. -/
theorem perform_readFile (hhost : KeepsFiles σ) {path : String} {bs : List UInt8}
    {fault : TripleStore.Files.Fault → Fault} (h : contents s path = .ok bs) :
    perform (orFail fault (readFile path) : Action (StateM σ) (List UInt8)).run s =
      (.ok bs, s) := by
  rw [perform_orFail_eq_ok, hhost.reads, h]

/-- The database is restored from its snapshot. -/
theorem restore_of_kept (hhost : KeepsFiles σ) (hdir : db.directory = some directory)
    (hf : f.Of db) (hshort : f.Short) (h : Kept s directory f) :
    perform (restore directory : Action (StateM σ) Database).run s = (.ok db, s) := by
  have hstore := Snapshot.decodeStore_eq hf.store hshort.store
  have hdictionary := Snapshot.decodeDictionary_eq hf.dictionary hshort.dictionary
  have hcatalogue := Snapshot.decodeCatalogue_eq hf.catalogue hshort.catalogue
  refine perform_bind_eq_ok.mpr ⟨_, s, perform_readFile hhost h.store, ?_⟩
  refine perform_bind_eq_ok.mpr ⟨db.tables.store, s, by rw [hstore]; rfl, ?_⟩
  refine perform_bind_eq_ok.mpr ⟨_, s, perform_readFile hhost h.dictionary, ?_⟩
  refine perform_bind_eq_ok.mpr ⟨db.tables.dictionary, s, by rw [hdictionary]; rfl, ?_⟩
  refine perform_bind_eq_ok.mpr ⟨_, s, perform_readFile hhost h.catalogue, ?_⟩
  refine perform_bind_eq_ok.mpr ⟨db.catalogue, s, by rw [hcatalogue]; rfl, ?_⟩
  rw [← hdir]
  rfl

/-- A database in a directory is opened as it was written. -/
theorem ofDirectory_of_kept (hhost : KeepsFiles σ) (hdir : db.directory = some directory)
    (hf : f.Of db) (hshort : f.Short) (h : Kept s directory f) :
    perform (ofDirectory directory : Action (StateM σ) Database).run s = (.ok db, s) := by
  have hmake := hhost.directory isName_store h.store
  have hpresent := hhost.present h.store
  refine perform_bind_eq_ok.mpr ⟨(), s, perform_orFail_eq_ok.mpr hmake, ?_⟩
  refine perform_bind_eq_ok.mpr ⟨true, s, ?_, restore_of_kept hhost hdir hf hshort h⟩
  rw [perform_lift, hpresent]

/-- Graphs that are in the catalogue are not loaded. -/
theorem loadMissing_of_mem (more : List String) {graphs : List (String × String)}
    (h : ∀ g ∈ graphs, g.1 ∈ db.catalogue) :
    perform (graphs.foldlM (fun db g => loadMissing more db g.1 g.2) db :
      Action (StateM σ) Database).run s = (.ok db, s) := by
  induction graphs with
  | nil => rfl
  | cons g graphs ih =>
    obtain ⟨hg, hgraphs⟩ := List.forall_mem_cons.mp h
    have hone : perform (loadMissing more db g.1 g.2 : Action (StateM σ) Database).run s =
        (.ok db, s) := by
      unfold loadMissing
      rw [if_pos (Std.ExtTreeMap.contains_iff_mem.mpr hg)]
      rfl
    exact perform_bind_eq_ok.mpr ⟨db, s, hone, ih hgraphs⟩

/-- A flush writes a snapshot of the database.  From any snapshot that was written the database
is restored, and it is opened as it is by a configuration whose graphs it has. -/
theorem reopen (hhost : KeepsFiles σ) (hdir : db.directory = some directory) :
    (db.flush : Action (StateM σ) Unit) = db.snapshot.write directory ∧ db.snapshot.Of db ∧
      ∀ (f : Snapshot.Files) (s s' : σ), f.Of db → f.Short →
        perform (f.write directory).run s = (.ok (), s') →
          perform (restore directory).run s' = (.ok db, s') ∧
            ∀ c : Config, c.path = some directory → (∀ g ∈ c.graphs, g ∈ db.catalogue) →
              perform (ofConfig c).run s' = (.ok db, s') := by
  refine ⟨flush_eq hdir, snapshot_of db, fun f s s' hf hshort h => ?_⟩
  have hkept := kept_of_write hhost h
  refine ⟨restore_of_kept hhost hdir hf hshort hkept, fun c hpath hgraphs => ?_⟩
  have hload : ∀ g ∈ c.graphs.toList, g.1 ∈ db.catalogue := by
    intro g hg
    refine hgraphs g.1 (Std.ExtTreeMap.mem_iff_isSome_getElem?.mpr ?_)
    rw [Std.ExtTreeMap.mem_toList_iff_getElem?_eq_some.mp hg]
    rfl
  rw [ofConfig, hpath]
  exact perform_bind_eq_ok.mpr ⟨db, s', ofDirectory_of_kept hhost hdir hf hshort hkept,
    loadMissing_of_mem _ hload⟩

/-- The database with the chain, kept in a directory. -/
def chainedIn (directory : String) : Database := { chained with directory := some directory }

/-- A tree with one directory. -/
def oneDirectory : FileTree :=
  { FileTree.empty 0 with nodes := (FileTree.empty 0).nodes.insert ["d"] .directory }

theorem writable_oneDirectory {name : String} (hname : IsName name)
    (hnull : '\x00' ∉ name.toList) (hshort : name.utf8ByteSize ≤ Route.maxName)
    (hfree : oneDirectory.node? ["d", name] ≠ some .directory) :
    oneDirectory.Writable "d" name where
  isName := hname
  short := hshort
  route := by
    refine Route.ofText_inDirectory hname (by decide) hnull ?_
    have hone : "d".utf8ByteSize = 1 := by decide +kernel
    rw [hone]
    exact Nat.lt_of_le_of_lt (Nat.add_le_add_left hshort 2) (by decide)
  place := by
    have hstart : Route.startOf "d" = [] := by simp [Route.startOf]
    rw [hstart]
    exact ⟨["d"], eq_ok_of_toOption (by decide +kernel), by decide +kernel, hfree⟩

/-- A configuration with the graph of the chain. -/
def chainedConfig : Config where
  path := some "d"
  graphs := (∅ : Std.ExtTreeMap String String compare).insert "g" "g.ttl"
  ontologies := []

theorem reopen_chained :
    ∃ t, perform ((chainedIn "d").flush : Action (StateM FileTree) Unit).run oneDirectory =
        (.ok (), t) ∧
      perform (restore "d" : Action (StateM FileTree) Database).run t =
        (.ok (chainedIn "d"), t) ∧
      perform (ofConfig chainedConfig : Action (StateM FileTree) Database).run t =
        (.ok (chainedIn "d"), t) := by
  have hshort : (chainedIn "d").snapshot.Short :=
    ⟨by decide +kernel, by decide +kernel, by decide +kernel⟩
  obtain ⟨t, ht⟩ := exists_write (chainedIn "d").snapshot
    (writable_oneDirectory isName_store (by decide) (by decide +kernel) (by decide +kernel))
    (writable_oneDirectory isName_dictionary (by decide) (by decide +kernel) (by decide +kernel))
    (writable_oneDirectory isName_catalogue (by decide) (by decide +kernel) (by decide +kernel))
  have hgraphs : ∀ g ∈ chainedConfig.graphs, g ∈ (chainedIn "d").catalogue := by
    have hchain : "g" ∈ (chainedIn "d").catalogue := by decide +kernel
    intro g hg
    obtain rfl : "g" = g := by simpa [chainedConfig] using hg
    exact hchain
  have hdir : (chainedIn "d").directory = some "d" := rfl
  obtain ⟨hflush, hof, hback⟩ := reopen FileTree.keepsFiles hdir
  obtain ⟨hrestore, hopen⟩ := hback _ oneDirectory t hof hshort ht
  exact ⟨t, hflush.symm ▸ ht, hrestore, hopen chainedConfig rfl hgraphs⟩

end Database

end TripleStore
