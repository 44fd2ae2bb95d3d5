import TripleStore.Fault
import TripleStore.Text.Utf8

/-!
# The host

What a database needs from outside: files, directories and a clock.  A path is a
text with `/` between its parts.

Whatever uses the outside is written against this interface.  So it can be run on
the files of the machine, and as well on `FileTree`, which is a plain value.
-/

namespace TripleStore

/-- Files, directories and a clock. -/
class Host (m : Type → Type) where
  /-- The bytes of a file. -/
  readFile : String → m (Except Files.Fault (List UInt8))
  /-- Make a file, or replace what it holds. -/
  writeFile : String → List UInt8 → m (Except Files.Fault Unit)
  /-- Make a directory and those it is in, unless they are there. -/
  makeDirectory : String → m (Except Files.Fault Unit)
  /-- Decide whether there is a file or directory. -/
  isPresent : String → m Bool
  /-- The time. -/
  now : m UInt64

namespace Host

variable {m : Type → Type} [Monad m] [Host m]

/-- An action that may fail. -/
abbrev Action (m : Type → Type) := ExceptT Fault m

/-- Give up with a fault that depends on the file fault. -/
def orFail {α : Type} (fault : Files.Fault → Fault) (a : m (Except Files.Fault α)) :
    Action m α :=
  ExceptT.mk do return (← a).mapError fault

/-- The text of a file. -/
def readText (path : String) : m (Except Files.Fault String) := do
  match ← readFile path with
  | .ok bs => return (Text.Utf8.decode bs).mapError fun _ => .notText
  | .error e => return .error e

/-- The path of a file in a directory.  The directory without a name is the current one. -/
def inDirectory (directory name : String) : String :=
  if directory.isEmpty || directory.endsWith "/" then directory ++ name
  else directory ++ "/" ++ name

end Host

end TripleStore
