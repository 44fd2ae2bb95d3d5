import Std.Data.ExtTreeMap.Lemmas
import TripleStore.Host.Basic

/-!
# File trees

A file tree is a host that is a plain value: the files and directories below the
current directory, and a clock that ticks whenever it is read.

A path is followed part by part.  A part is a name, `.`, which leads nowhere
else, or `..`, which leads to the directory above.  Empty parts count for
nothing.  Every part is looked up in a directory, and a `/` at the end of the
path wants a directory too.  A name of more than 255 bytes is refused when it is
looked up, and a path of 4096 bytes or more is refused at once.

Of what lies outside the current directory only the directories above it are
known, and the root.
-/

namespace TripleStore

/-- What is at a place. -/
inductive FileNode where
  /-- A directory. -/
  | directory
  /-- A file. -/
  | file (bytes : List UInt8)
deriving DecidableEq, Repr, Inhabited

/-- The names that lead to a place from the current directory.  They start with
`..` above the current directory, and with `/` at the root. -/
abbrev Place := List String

/-- Files, directories and a clock. -/
structure FileTree where
  /-- What is at each place below the current directory. -/
  nodes : Std.ExtTreeMap Place FileNode compare
  /-- The time. -/
  clock : UInt64

/-- A path, taken apart. -/
structure Route where
  /-- Where it starts. -/
  start : Place
  /-- Its parts. -/
  parts : List String
  /-- A `/` follows the last part, so a directory is wanted. -/
  wantsDirectory : Bool
deriving DecidableEq, Repr, Inhabited

/-! ## Places -/

namespace Place

/-- The root. -/
def root : Place := ["/"]

/-- Decide whether a place is the current directory or above it. -/
def isOutside (p : Place) : Bool := p = root || p.all (· = "..")

/-- The directory above a place. -/
def up (p : Place) : Place :=
  if p = root then root else if p.isOutside then p ++ [".."] else p.dropLast

end Place

/-! ## Paths -/

namespace Route

/-- The most bytes a name has. -/
def maxName : Nat := 255

/-- The number of bytes at which a path is too long. -/
def maxPath : Nat := 4096

/-- A path from its text. -/
def ofText (path : String) : Except Files.Fault Route :=
  if path.contains '\x00' then .error .nullCharacter
  else if maxPath ≤ path.utf8ByteSize then .error .tooLong
  else if path.isEmpty then .error .missing
  else
    .ok ⟨if path.startsWith "/" then Place.root else [],
      ((Text.pieces (· = '/') path.toList).map String.ofList).filter (· ≠ ""), path.endsWith "/"⟩

/-- The parts of a path without those that lead nowhere else.  A `.` stays at the
start of a path. -/
def essential (r : Route) : List String :=
  match r.start, r.parts with
  | [], p :: ps => p :: ps.filter (· ≠ ".")
  | _, ps => ps.filter (· ≠ ".")

/-- The paths of the directories a path is in, innermost first, without the
directory it starts from. -/
def above (r : Route) : List Route :=
  let ps := r.essential
  ((List.range ps.length).tail.reverse).map fun n => ⟨r.start, ps.take n, false⟩

end Route

namespace FileTree

/-- A tree without files at a time. -/
def empty (clock : UInt64) : FileTree := ⟨∅, clock⟩

/-- What is at a place, if anything is. -/
def node? (t : FileTree) (place : Place) : Option FileNode :=
  if place.isOutside then some .directory else t.nodes[place]?

/-- A place that has to be a directory. -/
def enter (t : FileTree) (place : Place) : Except Files.Fault Unit :=
  match t.node? place with
  | some .directory => .ok ()
  | some (.file _) => .error .notDirectory
  | none => .error .missing

/-- The place that a part leads to from a directory. -/
def step (t : FileTree) (place : Place) (part : String) : Except Files.Fault Place := do
  t.enter place
  if part = "." then return place
  if part = ".." then return place.up
  if Route.maxName < part.utf8ByteSize then throw .tooLong
  return place ++ [part]

/-- The place a path leads to.  There need not be anything at it. -/
def locate (t : FileTree) (r : Route) : Except Files.Fault Place :=
  r.parts.foldlM t.step r.start

/-- The directory that the last part of a path is looked up in. -/
def container (t : FileTree) (r : Route) : Except Files.Fault Place := do
  let place ← t.locate { r with parts := r.parts.dropLast }
  t.enter place
  return place

/-- What is at the end of a path. -/
def look (t : FileTree) (r : Route) : Except Files.Fault FileNode := do
  match t.node? (← t.locate r) with
  | none => throw .missing
  | some .directory => return .directory
  | some (.file bytes) => if r.wantsDirectory then throw .notDirectory else return .file bytes

/-- Decide whether a path ends at a directory. -/
def isDirectory (t : FileTree) (r : Route) : Bool :=
  match t.look r with
  | .ok .directory => true
  | _ => false

/-! ## Operations -/

/-- The bytes of a file. -/
def readFile (t : FileTree) (path : String) : Except Files.Fault (List UInt8) := do
  match ← t.look (← Route.ofText path) with
  | .file bytes => return bytes
  | .directory => throw .isDirectory

/-- A tree with a file. -/
def writeFile (t : FileTree) (path : String) (bytes : List UInt8) :
    Except Files.Fault FileTree := do
  let r ← Route.ofText path
  let _ ← t.container r
  if r.wantsDirectory then throw .isDirectory
  let place ← t.locate r
  if t.node? place = some .directory then throw .isDirectory
  return { t with nodes := t.nodes.insert place (.file bytes) }

/-- A tree with a directory in one that is there. -/
def makeOne (t : FileTree) (r : Route) : Except Files.Fault FileTree := do
  let place ← t.container r
  match r.parts.getLast? with
  | none => throw .exists
  | some part =>
    let new ← t.step place part
    if part = "." || part = ".." || (t.node? new).isSome then throw .exists
    return { t with nodes := t.nodes.insert new .directory }

/-- Make a directory, unless it is there. -/
def make (t : FileTree) (r : Route) : Except Files.Fault Unit × FileTree :=
  match t.makeOne r with
  | .ok t => (.ok (), t)
  | .error e =>
    if e = .exists && t.isDirectory r then (.ok (), t) else (.error e, t)

/-- Make the first of some directories.  As long as one is missing on the way to
it, the next is made before. -/
def makeAll (t : FileTree) : List Route → Except Files.Fault Unit × FileTree
  | [] => (.ok (), t)
  | r :: rs =>
    match t.make r with
    | (.error .missing, t) =>
      match t.makeAll rs with
      | (.ok _, t) => t.make r
      | failed => failed
    | done => done

/-- Make a directory and those it is in.  Directories made on the way stay if it
cannot be made.  The path without characters is the current directory. -/
def makeDirectory (t : FileTree) (path : String) : Except Files.Fault Unit × FileTree :=
  if path.isEmpty then (.ok (), t)
  else match Route.ofText path with
    | .ok r => t.makeAll (r :: r.above)
    | .error e => (.error e, t)

/-- Decide whether there is a file or directory. -/
def isPresent (t : FileTree) (path : String) : Bool :=
  (Route.ofText path >>= t.look).toOption.isSome

/-! ## As a host -/

/-- Write a file, if it can be written. -/
def write (path : String) (bytes : List UInt8) : StateM FileTree (Except Files.Fault Unit) :=
  fun t =>
    match t.writeFile path bytes with
    | .ok t => (.ok (), t)
    | .error e => (.error e, t)

instance : Host (StateM FileTree) where
  readFile path := do return (← get).readFile path
  writeFile := write
  makeDirectory path := fun t => t.makeDirectory path
  isPresent path := do return (← get).isPresent path
  now := fun t => (t.clock, { t with clock := t.clock + 1 })

end FileTree

end TripleStore
