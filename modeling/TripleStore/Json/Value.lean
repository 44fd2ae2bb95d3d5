/-!
# JSON values to write

Configurations and queries are written as JSON values without white space.  The
fields of an object are written in the order they are given.
-/

namespace TripleStore

/-- A value to be written. -/
inductive Json where
  /-- The word `null`. -/
  | null
  /-- A natural number. -/
  | natural (n : Nat)
  /-- A text. -/
  | text (s : String)
  /-- A sequence of values. -/
  | array (items : List Json)
  /-- A sequence of named values. -/
  | object (fields : List (String × Json))
deriving Inhabited

namespace Json

/-- The value of a list of texts. -/
def ofTexts (ss : List String) : Json := .array (ss.map .text)

/-! ## Writing -/

/-- The two lower-case hexadecimal digits of a control character. -/
def controlDigits (n : Nat) : List Char := [Nat.digitChar (n / 16), Nat.digitChar (n % 16)]

/-- A character of a quoted text. -/
def writeChar (c : Char) : List Char :=
  if c = '"' then ['\\', '"']
  else if c = '\\' then ['\\', '\\']
  else if c = '\x08' then ['\\', 'b']
  else if c = '\x0c' then ['\\', 'f']
  else if c = '\n' then ['\\', 'n']
  else if c = '\r' then ['\\', 'r']
  else if c = '\t' then ['\\', 't']
  else if c.toNat < 0x20 then ['\\', 'u', '0', '0'] ++ controlDigits c.toNat
  else [c]

/-- A quoted text. -/
def writeText (s : String) : List Char := '"' :: s.toList.flatMap writeChar ++ ['"']

/-- Texts with commas between them. -/
def commaSeparated : List (List Char) → List Char
  | [] => []
  | [cs] => cs
  | cs :: ds :: rest => cs ++ ',' :: commaSeparated (ds :: rest)

mutual

/-- The text of a value, without white space. -/
def write : Json → List Char
  | .null => ['n', 'u', 'l', 'l']
  | .natural n => Nat.toDigits 10 n
  | .text s => writeText s
  | .array items => '[' :: commaSeparated (writeItems items) ++ [']']
  | .object fields => '\x7b' :: commaSeparated (writeFields fields) ++ ['\x7d']

/-- The texts of the items of an array. -/
def writeItems : List Json → List (List Char)
  | [] => []
  | j :: js => write j :: writeItems js

/-- The texts of the fields of an object. -/
def writeFields : List (String × Json) → List (List Char)
  | [] => []
  | (s, j) :: fs => (writeText s ++ ':' :: write j) :: writeFields fs

end

/-- The text of a value. -/
def render (j : Json) : String := String.ofList (write j)

end Json

end TripleStore
