import TripleStore.Text.Printable

/-!
# Quoted text

Messages that name a text show it between double quotes, on one line and without
characters that would not be seen.  The quote, the backslash and the common
control characters have short escapes.  Any other character without a glyph of
its own is written by its code point in hexadecimal.
-/

namespace TripleStore.Text.Quoted

/-- The lower-case hexadecimal digits of a number. -/
def hex (n : Nat) : List Char := Nat.toDigits 16 n

/-- A character between quotes. -/
def encodeChar (c : Char) : List Char :=
  if c = '\x00' then ['\\', '0']
  else if c = '\t' then ['\\', 't']
  else if c = '\r' then ['\\', 'r']
  else if c = '\n' then ['\\', 'n']
  else if c = '"' then ['\\', '"']
  else if c = '\\' then ['\\', '\\']
  else if Printable.isPrintable c then [c]
  else ['\\', 'u', '\x7b'] ++ hex c.toNat ++ ['\x7d']

/-- A text between quotes. -/
def encode (s : String) : String :=
  String.ofList ('"' :: s.toList.flatMap encodeChar ++ ['"'])

example : encode "a\"b\n" = "\"a\\\"b\\n\"" := by decide +kernel

end TripleStore.Text.Quoted
