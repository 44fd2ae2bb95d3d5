import TripleStore.Arguments
import TripleStore.Database.Answer
import TripleStore.Database.Files

/-!
# Commands

The command line.  A command opens the database of a configuration, or an empty
one, does its work, and writes the snapshot if the work succeeded.

What is printed before a fault stays printed.  A fault is printed as an error and
makes the command fail.
-/

namespace TripleStore

/-- What a query command prints. -/
inductive Report where
  /-- The rows, as a table. -/
  | table
  /-- The number of rows. -/
  | count
  /-- The plans. -/
  | plans
deriving DecidableEq, Repr, Inhabited

/-- What to do with a database. -/
inductive Command where
  /-- Load data files into a graph. -/
  | load (graph file : String) (more : List String)
  /-- Answer the query in a file. -/
  | query (file : String) (report : Report)
  /-- List the graphs. -/
  | graphs
  /-- List the versions of a graph. -/
  | versions (graph : String)
  /-- Tell the version of the program. -/
  | programVersion
deriving DecidableEq, Repr, Inhabited

/-- A command and the configuration file of the database, if there is one. -/
structure Invocation where
  /-- The configuration file. -/
  config : Option String
  /-- The command. -/
  command : Command
deriving DecidableEq, Repr, Inhabited

namespace Command

/-! ## Arguments -/

/-- The options of a command by its name. -/
def flags : String → List Flag
  | "load" => [{ name := "ontology", letter := none, valued := true }]
  | "query" => [{ name := "count", letter := none }, { name := "explain", letter := none }]
  | _ => []

/-- What a query command prints, by its options, each of which is given at most
once.  The plans go before the number of rows. -/
def reportOf? (a : Arguments) : Option Report :=
  if 1 < a.count "count" || 1 < a.count "explain" then none
  else if a.count "explain" = 1 then some .plans
  else if a.count "count" = 1 then some .count
  else some .table

/-- A command from its name and its arguments.  The path of a file is not empty. -/
def ofArguments? (name : String) (arguments : List String) : Option Command := do
  let a ← Arguments.sort? (flags name) false {} arguments
  match name, a.plain with
  | "load", [graph, file] =>
    let more := a.values "ontology"
    if file = "" || more.contains "" then none else some (.load graph file more)
  | "query", [file] => if file = "" then none else (reportOf? a).map (.query file)
  | "graphs", [] => some .graphs
  | "versions", [graph] => some (.versions graph)
  | _, _ => none

end Command

namespace Invocation

/-- The options before the command. -/
def flags : List Flag :=
  [{ name := "config", letter := some 'c', valued := true },
   { name := "version", letter := some 'V', final := true }]

/-- An invocation from the arguments of the program.  The configuration file is
named at most once, before the command. -/
def ofArguments? (arguments : List String) : Option Invocation := do
  let a ← Arguments.sort? flags true {} arguments
  if a.count "version" ≠ 0 then return ⟨none, .programVersion⟩
  match a.values "config", a.plain with
  | [], name :: rest => (Command.ofArguments? name rest).map fun c => ⟨none, c⟩
  | [path], name :: rest =>
    if path = "" then none else (Command.ofArguments? name rest).map fun c => ⟨some path, c⟩
  | _, _ => none

/-- How the program is called. -/
def usage : String :=
  "Usage: triplestore [--config FILE] load GRAPH FILE [--ontology FILE]...\n"
    ++ "       triplestore [--config FILE] query FILE [--count] [--explain]\n"
    ++ "       triplestore [--config FILE] graphs\n"
    ++ "       triplestore [--config FILE] versions GRAPH\n"

end Invocation

/-! ## Running -/

/-- What a command leaves: its two outputs, and whether it succeeded. -/
@[ext]
structure Outcome where
  /-- Whether the command succeeded. -/
  ok : Bool
  /-- The output. -/
  stdout : String
  /-- The error output. -/
  stderr : String
deriving DecidableEq, Repr, Inhabited

namespace Command

open Host Database

variable {m : Type → Type} [Monad m] [Host m]

/-- Lines of output. -/
def lines (texts : List String) : String := String.join (texts.map (· ++ "\n"))

/-- The name of the program and its version. -/
def versionLine : String := "hoddb 0.1.0"

/-- What a query prints. -/
def report (db : Database) (q : Query) : Report → Except Fault String
  | .plans => db.explain q
  | .count => (db.count q).map fun r => lines [toString r.count]
  | .table => (db.select q).map fun r => lines [r.text]

/-- Do the work of a command.  The answer is what it prints, and the database
afterwards. -/
def work (c : Config) (db : Database) : Command → Action m (String × Database)
  | load graph file more => do
    match ← ExceptT.lift (db.loadFiles graph file (c.ontologies ++ more)) with
    | (.ok v, db) => return (lines [graph ++ " @ " ++ toString v.toNat], db)
    | (.error e, _) => throw e
  | query file kind => do
    let q ← Query.ofText (← orFail .file (readText file))
    return (← report db q kind, db)
  | graphs => return (lines db.graphs, db)
  | versions graph => do
    return (lines ((← db.versions graph).map fun v => toString v.toNat), db)
  | programVersion => return (lines [versionLine], db)

end Command

namespace Invocation

open Host Database

variable {m : Type → Type} [Monad m] [Host m]

/-- Open the database of an invocation and do the work of its command. -/
def work (i : Invocation) : Action m (String × Database) := do
  let c ← match i.config with
    | some path => readConfig path
    | none => pure Config.inMemory
  i.command.work c (← ofConfig c)

/-- The outcome of a fault after some output. -/
def failed (stdout : String) (e : Fault) : Outcome := ⟨false, stdout, "Error: " ++ e.message ++ "\n"⟩

/-- Run an invocation. -/
def run (i : Invocation) : m Outcome := do
  match ← i.work.run with
  | .error e => return failed "" e
  | .ok (stdout, db) =>
    match ← db.flush.run with
    | .error e => return failed stdout e
    | .ok _ => return ⟨true, stdout, ""⟩

end Invocation

end TripleStore
