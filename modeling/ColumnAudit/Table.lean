import ColumnAudit.Text.Blank

/-! # Aligned text tables

A table has headers, an alignment for each column and rows of any length. It is written as one line
for the headers, one of dashes and one for each row, with two spaces between columns; a column is as
wide as its widest cell. Terminal escape sequences take no width, and line ends and tabs in a cell
are written as spaces, so that a row stays on its line.
-/

namespace ColumnAudit
open Text
set_option autoImplicit false

/-- The side of a column that its cells are moved to. -/
inductive Align where
  | left
  | right
deriving DecidableEq, Repr

/-- A table of texts. -/
structure Table where
  headers : List String
  aligns : List Align
  rows : List (List String)
deriving DecidableEq, Repr

namespace Table

/-- A table without rows and with its columns to the left. -/
def ofHeaders (headers : List String) : Table := ⟨headers, headers.map fun _ => .left, []⟩

/-- The table with another alignment of one column, if it has that column. -/
def align (t : Table) (column : Nat) (side : Align) : Table :=
  { t with aligns := t.aligns.set column side }

/-- The table with one more row. -/
def addRow (t : Table) (row : List String) : Table := { t with rows := t.rows ++ [row] }

/-! ## Cells -/

/-- The width of a text: one for each character outside escape sequences, which start with U+001B
and end with the next `m`. `escape` says that the text starts inside one. -/
def widthFrom (escape : Bool) : List Char → Nat
  | [] => 0
  | c :: cs =>
    if escape then widthFrom (c != 'm') cs
    else if c = '\x1b' then widthFrom true cs
    else widthFrom false cs + 1

/-- The width that a text takes up. -/
def width (s : String) : Nat := widthFrom false s.toList

/-- A cell on one line: line ends and tabs become spaces. -/
def onOneLine (s : String) : String :=
  String.ofList (s.toList.map fun c => if c = '\n' ∨ c = '\r' ∨ c = '\t' then ' ' else c)

/-- A cell filled up with spaces to a width. -/
def cellText (cell : String) (columnWidth : Nat) (side : Align) : String :=
  let shown := onOneLine cell
  let padding := "".pushn ' ' (columnWidth - width shown)
  match side with
  | .left => shown ++ padding
  | .right => padding ++ shown

/-! ## Layout -/

/-- The width of each column: that of its widest cell, and at least one. -/
def widths (t : Table) : List Nat :=
  (List.range t.headers.length).map fun i =>
    (t.headers :: t.rows).foldl (fun w row => max w (width (row.getD i ""))) 1

/-- The line of a row: a cell for each column, a missing one empty. -/
def line (t : Table) (columnWidths : List Nat) (row : List String) : String :=
  let cells := columnWidths.zipIdx.map fun (w, i) =>
    cellText (row.getD i "") w (t.aligns.getD i .left)
  String.ofList (trimEnd ("  ".intercalate cells).toList) ++ "\n"

/-- The text of a table. -/
def render (t : Table) : String :=
  let ws := t.widths
  let rule := ws.map fun w => "".pushn '-' w
  String.join ((t.headers :: rule :: t.rows).map (t.line ws))

end Table
end ColumnAudit
