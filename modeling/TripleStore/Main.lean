import Std.Time.DateTime.Timestamp
import TripleStore.Command

/-!
# The program

The host of the machine, and the entry point of the command line.
-/

namespace TripleStore

namespace Machine

/-- The number of the fault "is a directory". -/
def isDirectoryCode : UInt32 := 21

/-- The fault of a file operation of the machine. -/
def faultOf : IO.Error → Files.Fault
  | .noFileOrDirectory .. => .missing
  | .permissionDenied .. => .denied
  | .alreadyExists .. => .exists
  | .inappropriateType _ code _ => if code = isDirectoryCode then .isDirectory else .notDirectory
  | e => .other (toString e)

/-- Do a file operation of the machine. -/
def attempt {α : Type} (action : IO α) : IO (Except Files.Fault α) := do
  match ← action.toBaseIO with
  | .ok a => return .ok a
  | .error e => return .error (faultOf e)

/-- Decide whether a path can be opened, or cannot only because of what is there. -/
def isPresent (path : String) : IO Bool := do
  match ← attempt (IO.FS.Handle.mk path .read) with
  | .error .missing | .error .notDirectory => return false
  | _ => return true

/-- Make a directory, given the parts of its path, last part first. -/
def makeDirectory : List String → IO (Except Files.Fault Unit)
  | [] => return .ok ()
  | part :: parts => do
    let path := String.intercalate "/" (part :: parts).reverse
    match ← attempt (IO.FS.createDir path) with
    | .ok _ => return .ok ()
    | .error .missing =>
      match ← makeDirectory parts with
      | .ok _ => attempt (IO.FS.createDir path)
      | .error e => return .error e
    | .error e => if ← isPresent (path ++ "/.") then return .ok () else return .error e

instance : Host IO where
  readFile path := attempt do return (← IO.FS.readBinFile path).toList
  writeFile path bytes := attempt (IO.FS.writeBinFile path (ByteArray.mk bytes.toArray))
  makeDirectory path :=
    if path.isEmpty then return .ok () else makeDirectory (path.splitOn "/").reverse
  isPresent := isPresent
  now := do return UInt64.ofNat (← Std.Time.Timestamp.now).toNanosecondsSinceUnixEpoch.val.toNat

end Machine

end TripleStore

/-- Run a command of the command line. -/
def main (arguments : List String) : IO UInt32 := do
  match TripleStore.Invocation.ofArguments? arguments with
  | none =>
    (← IO.getStderr).putStr TripleStore.Invocation.usage
    return 2
  | some invocation =>
    let outcome ← invocation.run (m := IO)
    (← IO.getStdout).putStr outcome.stdout
    (← IO.getStderr).putStr outcome.stderr
    return if outcome.ok then 0 else 1
