/-!
# File faults

Why a file cannot be read or written, with the wording and number the operating
system gives it.
-/

namespace TripleStore.Files

/-- Why a file operation fails. -/
inductive Fault where
  /-- There is no such file or directory. -/
  | missing
  /-- The operation is not allowed. -/
  | denied
  /-- A file is already there. -/
  | exists
  /-- A part of the path is a file. -/
  | notDirectory
  /-- The path is a directory. -/
  | isDirectory
  /-- The path or a part of it is too long. -/
  | tooLong
  /-- The path holds the character with the number zero. -/
  | nullCharacter
  /-- The file is not UTF-8. -/
  | notText
  /-- Any other fault, in its own words. -/
  | other (message : String)
deriving DecidableEq, Repr, Inhabited

/-- The wording of a fault. -/
def Fault.message : Fault → String
  | .missing => "No such file or directory (os error 2)"
  | .denied => "Permission denied (os error 13)"
  | .exists => "File exists (os error 17)"
  | .notDirectory => "Not a directory (os error 20)"
  | .isDirectory => "Is a directory (os error 21)"
  | .tooLong => "File name too long (os error 36)"
  | .nullCharacter => "file name contained an unexpected NUL byte"
  | .notText => "stream did not contain valid UTF-8"
  | .other message => message

end TripleStore.Files
