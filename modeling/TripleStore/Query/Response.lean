import TripleStore.Uri
import TripleStore.Text.Utf8

/-!
# Responses

A response holds the rows found for the selected variables, their number, and
the newest version that was looked at.  A response to a counting query has a
number and no rows.

As text it is a table of the local values.  A column is as wide as the widest of
its texts in UTF-8 bytes.  A text is filled up with spaces to that number of
characters.
-/

namespace TripleStore

/-- The answer to a query. -/
@[ext]
structure Response where
  /-- The selected variables. -/
  vars : List String
  /-- The rows, with a term for each variable. -/
  rows : List (List Uri)
  /-- The number of rows. -/
  count : Nat
  /-- The newest version that was looked at, zero if none was. -/
  version : UInt64
deriving DecidableEq, Repr, Inhabited

namespace Response

/-- A text filled up with spaces to a number of characters. -/
def pad (width : Nat) (s : String) : String :=
  s ++ String.ofList (List.replicate (width - s.length) ' ')

/-- The width of a column: the variable at the head and the texts below it. -/
def columnWidth (cells : List (List String)) (i : Nat) (var : String) : Nat :=
  cells.foldl (fun w row => max w (Text.Utf8.size (row.getD i ""))) (Text.Utf8.size var)

/-- One line of the table. -/
def line (widths : List Nat) (texts : List String) : String :=
  String.intercalate " | " ((texts.zip widths).map fun p => pad p.2 p.1)

/-- A response as text. -/
def text (r : Response) : String :=
  let cells := r.rows.map fun row => row.map Uri.value
  let widths := r.vars.mapIdx fun i v => columnWidth cells i v
  let rule := String.intercalate "-+-" (widths.map fun w => String.ofList (List.replicate w '-'))
  String.join (([line widths r.vars, rule] ++ cells.map (line widths)).map (· ++ "\n"))
    ++ toString r.count ++ " rows @ version " ++ toString r.version.toNat

end Response

end TripleStore
