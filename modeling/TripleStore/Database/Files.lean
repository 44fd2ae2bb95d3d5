import TripleStore.Config
import TripleStore.Database.Insert
import TripleStore.Database.Snapshot
import TripleStore.Dataset.Turtle
import TripleStore.Host.Basic

/-!
# Databases and files

Loading data files into graphs, opening a database as a configuration says, and
writing its snapshot.

An opened database starts from the snapshot in its directory, if there is one.
Then every configured graph that it does not have is loaded from its data file.
-/

namespace TripleStore

namespace Database

open Host

variable {m : Type → Type} [Monad m] [Host m]

/-! ## Data files -/

/-- The dataset in a data file. -/
def readDataset (path : String) : Action m Dataset := do
  return Dataset.Turtle.parse (← orFail (.dataFile path) (readText path))

/-- The dataset in a data file and those in further files, put together. -/
def readDatasets (file : String) (more : List String) : Action m Dataset := do
  let first ← readDataset file
  more.foldlM (fun d path => do return d.extend (← readDataset path)) first

/-- Load data files into a graph.  The answer is the new version. -/
def loadFiles (db : Database) (graph file : String) (more : List String) :
    m (Except Fault UInt64 × Database) := do
  match ← (readDatasets file more).run with
  | .ok d => return db.insert (← now) graph d
  | .error e => return (.error e, db)

/-! ## Snapshots -/

/-- The file of the records. -/
def storeFile (directory : String) : String := inDirectory directory "entities.bin"

/-- The file of the terms. -/
def dictionaryFile (directory : String) : String := inDirectory directory "dictionary.bin"

/-- The file of the catalogue. -/
def catalogueFile (directory : String) : String := inDirectory directory "catalog.bin"

/-- The database in a snapshot. -/
def restore (directory : String) : Action m Database := do
  let store ← Snapshot.decodeStore (← orFail .file (readFile (storeFile directory)))
  let dictionary ←
    Snapshot.decodeDictionary (← orFail .file (readFile (dictionaryFile directory)))
  let catalogue ← Snapshot.decodeCatalogue (← orFail .file (readFile (catalogueFile directory)))
  return ⟨⟨store, dictionary⟩, catalogue, directory⟩

/-- The database in a directory, which is made if it is not there. -/
def ofDirectory (directory : String) : Action m Database := do
  orFail .file (makeDirectory directory)
  let kept ← ExceptT.lift (isPresent (storeFile directory))
  if kept then restore directory
  else return { empty with directory := some directory }

/-- Write a snapshot, if the database has a directory. -/
def flush (db : Database) : Action m Unit :=
  match db.directory with
  | none => return
  | some directory => do
    orFail .file (writeFile (storeFile directory) (Snapshot.encodeStore db.tables.store))
    orFail .file
      (writeFile (dictionaryFile directory) (Snapshot.encodeDictionary db.tables.dictionary))
    orFail .file (writeFile (catalogueFile directory) (Snapshot.encodeCatalogue db.catalogue))

/-! ## Configurations -/

/-- Load a configured graph, unless it is there. -/
def loadMissing (more : List String) (db : Database) (graph file : String) :
    Action m Database := do
  if db.catalogue.contains graph then return db
  match ← ExceptT.lift (db.loadFiles graph file more) with
  | (.ok _, db) => return db
  | (.error e, _) => throw e

/-- The database of a configuration. -/
def ofConfig (c : Config) : Action m Database := do
  let db ← match c.path with
    | some directory => ofDirectory directory
    | none => pure empty
  c.graphs.toList.foldlM (fun db g => loadMissing c.ontologies db g.1 g.2) db

/-- The configuration in a file. -/
def readConfig (path : String) : Action m Config := do
  Config.ofText (← orFail (.configFile path) (readText path))

end Database

end TripleStore
