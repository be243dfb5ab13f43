import ColumnAudit.Schema.Catalog
import ColumnAudit.Text.ByteOffset
import ColumnAudit.Text.Pattern

/-! # Reading a schema by byte offsets

The same reading of a schema as in the catalog, with every text cut out of a longer one between two
byte offsets. The offsets are counted while the characters of a line are walked through, or they come out
of a match in a text that has a blank more at its end than the one that is cut. Each cut and each
counter may fail, and a failure ends the reading.

* `ByOffset.stripComment` cuts a line in front of the first of two dashes.
* `ByOffset.splitTopLevel` cuts a line at its top-level commas.
* `ByOffset.columnName` cuts a definition where the name that a pattern finds in it ends.
-/

namespace ColumnAudit.Schema
open Text
set_option autoImplicit false

/-! ## The pattern of a column -/

/-- A column at the front of a definition as a pattern: blanks or none, its name, and blanks behind it.
The name is the group. -/
def columnPattern : Grouped :=
  .lead (.star (.one isBlank))
    (.trail (.group (.headed isFoldedStart isFoldedPart)) (.many (.one isBlank)))

/-- The byte offset of a place. -/
def offsetOf (t : String) (s : Place) : Nat := (String.ofList (t.toList.take s.taken)).utf8ByteSize

/-- The byte offsets around the name in the match that is tried first. -/
def nameGroup (t : String) : Option (Nat × Nat) :=
  columnPattern.attempt ⟨none, t.toList, 0⟩ fun m => some (offsetOf t m.opened, offsetOf t m.closed)

namespace ByOffset

/-! ## Cutting a body into definitions -/

/-- The line without its comment, when the characters before some place have been walked through.
`literal` says that the place is inside a literal, and `dash` that a dash outside literals is in front
of it. -/
def stripCommentFrom (line : String) (literal dash : Bool) :
    List (Nat × Char) → Except OffsetFault String
  | [] => pure line
  | (offset, c) :: rest =>
    if c = '\x27' then stripCommentFrom line (!literal) false rest
    else if c == '-' && !literal && dash then do
      let stop ← oneLess offset
      slice line 0 stop
    else stripCommentFrom line literal (c == '-' && !literal) rest

/-- A line without its comment. -/
def stripComment (line : String) : Except OffsetFault String :=
  stripCommentFrom line false false (charOffsets line)

/-- What is known at a place of a line that is cut at its top-level commas. -/
structure Splitting where
  pieces : List String := []
  depth : Nat := 0
  /-- The offset at which the next piece starts. -/
  start : Nat := 0
  literal : Bool := false

/-- One character further. -/
def Splitting.step (line : String) (s : Splitting) (place : Nat × Char) :
    Except OffsetFault Splitting :=
  let (offset, c) := place
  if c = '\x27' then pure { s with literal := !s.literal }
  else if s.literal then pure s
  else if c = '(' then do
    let depth ← oneMore line s.depth
    pure { s with depth }
  else if c = ')' then pure { s with depth := s.depth - 1 }
  else if c = ',' ∧ s.depth = 0 then do
    let piece ← slice line s.start offset
    let start ← oneMore line offset
    pure { s with pieces := s.pieces ++ [piece], start }
  else pure s

/-- The pieces found and the last one, which goes up to the end of the line. -/
def Splitting.finish (line : String) (s : Splitting) : Except OffsetFault (List String) := do
  let last ← slice line s.start line.utf8ByteSize
  pure (s.pieces ++ [last])

/-- The pieces between the commas outside literals and parentheses. -/
def splitTopLevel (line : String) : Except OffsetFault (List String) := do
  let s ← (charOffsets line).foldlM (Splitting.step line) {}
  s.finish line

/-- The definitions of a table body. -/
def definitions (body : String) : Except OffsetFault (List String) :=
  if (trim body.toList).contains '\n' then pure ((lines body.toList).map String.ofList)
  else do
    let code ← stripComment body
    splitTopLevel code

/-! ## The column of a definition -/

/-- A definition without the blanks around it. -/
def trimmed (definition : String) : String := String.ofList (trim definition.toList)

/-- A trimmed definition with a blank behind it, so that a name at its end is a match too. -/
def padded (definition : String) : String := trimmed definition ++ " "

/-- The identifier at the front of a definition, cut out where the name of the padded one ends. -/
def columnName (definition : String) : Except OffsetFault (Option String) :=
  let t := trimmed definition
  if t.isEmpty || isComment t.toList || isConstraint t.toList then pure none
  else match nameGroup (padded definition) with
    | none => pure none
    | some (_, stop) => do
      let name ← slice t 0 stop
      pure (some name)

/-- The columns that a table body defines, in order. -/
def bodyColumns (body : String) : Except OffsetFault (List String) := do
  let texts ← definitions body
  let columns ← texts.mapM columnName
  pure (columns.filterMap id)

/-- The catalog of a schema text. -/
def parse (sql : String) : Except OffsetFault Catalog := do
  let tables ← (tableBlocks sql.toList).mapM fun b => do
    let columns ← bodyColumns (String.ofList b.body)
    pure (b.name, NameSet.ofList columns)
  pure ⟨NameMap.ofList tables⟩

end ByOffset
end ColumnAudit.Schema
