/-!
# Arguments

The arguments of a program are options and plain arguments.  An option has a name
of its own behind `--`, and some have a letter behind `-` as well.  The value of
an option is the next argument, or stands behind `=`, or directly behind the
letter.  After `--` there are only plain arguments.  A `-` alone is plain.
-/

namespace TripleStore

/-- An option of a program. -/
structure Flag where
  /-- Its name. -/
  name : String
  /-- Its letter, if it has one. -/
  letter : Option Char
  /-- It has a value. -/
  valued : Bool := false
  /-- Nothing after it is looked at. -/
  final : Bool := false
deriving DecidableEq, Repr, Inhabited

/-- The arguments of a program, sorted. -/
structure Arguments where
  /-- The plain arguments. -/
  plain : List String := []
  /-- The options that were given, by name, with their values. -/
  given : List (String × Option String) := []
deriving DecidableEq, Repr, Inhabited

namespace Arguments

/-- What an argument is by itself. -/
inductive Kind where
  /-- A plain argument. -/
  | plain
  /-- The end of the options. -/
  | endOfOptions
  /-- An option with all that belongs to it. -/
  | complete (name : String) (value : Option String)
  /-- An option whose value is the next argument. -/
  | unfinished (name : String)
  /-- An option after which nothing is looked at. -/
  | final (name : String)
  /-- Nothing that is known. -/
  | unknown
deriving DecidableEq, Repr, Inhabited

/-- What an option is, given the value that stands behind it, if any does. -/
def kindOf (value : Option String) : Option Flag → Kind
  | none => .unknown
  | some f =>
    if f.valued then
      match value with
      | some v => .complete f.name (some v)
      | none => .unfinished f.name
    else if value.isSome then .unknown
    else if f.final then .final f.name
    else .complete f.name none

/-- What an argument that starts with `--` is, given the characters after that. -/
def kindOfName (flags : List Flag) (cs : List Char) : Kind :=
  let name := String.ofList (cs.takeWhile (· ≠ '='))
  let value := match cs.dropWhile (· ≠ '=') with
    | _ :: v => some (String.ofList v)
    | [] => none
  kindOf value (flags.find? fun f => f.name = name)

/-- What an argument that starts with `-` and a letter is, given the characters
after the letter. -/
def kindOfLetter (flags : List Flag) (c : Char) (cs : List Char) : Kind :=
  let value := match cs with
    | [] => none
    | '=' :: v => some (String.ofList v)
    | v => some (String.ofList v)
  let flag := flags.find? fun f => f.letter = some c
  kindOf (if flag.any Flag.final then none else value) flag

/-- What an argument is. -/
def kind (flags : List Flag) (a : String) : Kind :=
  match a.toList with
  | ['-', '-'] => .endOfOptions
  | '-' :: '-' :: cs => kindOfName flags cs
  | '-' :: c :: cs => kindOfLetter flags c cs
  | _ => .plain

/-- Sort arguments, given the options there are.  If `leading` is set only the
options before the first plain argument are sorted, and there has to be one.  The
answer is none if an option is not known or its value is missing.  An option
after which nothing is looked at ends the arguments. -/
def sort? (flags : List Flag) (leading : Bool) : Arguments → List String → Option Arguments
  | sofar, [] => if leading then none else some sofar
  | sofar, a :: rest =>
    match kind flags a with
    | .plain =>
      if leading then some { sofar with plain := a :: rest }
      else sort? flags leading { sofar with plain := sofar.plain ++ [a] } rest
    | .endOfOptions =>
      if leading then none else some { sofar with plain := sofar.plain ++ rest }
    | .complete name value =>
      sort? flags leading { sofar with given := sofar.given ++ [(name, value)] } rest
    | .unfinished name =>
      match rest with
      | v :: rest =>
        if kind flags v = .plain then
          sort? flags leading { sofar with given := sofar.given ++ [(name, some v)] } rest
        else none
      | [] => none
    | .final name => some { sofar with given := sofar.given ++ [(name, none)] }
    | .unknown => none

/-- The values an option was given, in order. -/
def values (a : Arguments) (name : String) : List String :=
  a.given.filterMap fun g => if g.1 = name then g.2 else none

/-- The number of times an option was given. -/
def count (a : Arguments) (name : String) : Nat := (a.given.map (·.1)).count name

end Arguments

end TripleStore
