import ColumnAudit.Schema.Definition

/-! # Table declarations in a schema text

A table block is `CREATE TABLE`, possibly `IF NOT EXISTS`, a name, and a body between `(` and the
next `);`. The words are in capitals and any blanks may stand between them. Everything else in a
schema text is passed over.
-/

namespace ColumnAudit.Schema
open Text
set_option autoImplicit false

/-- A declared table: its name and the text between its parentheses. -/
structure TableBlock where
  name : String
  body : List Char
deriving DecidableEq

/-- The text behind `IF NOT EXISTS` and the blanks after it. -/
def behindGuard (t : List Char) : Option (List Char) := do
  let t ← behind "IF" t
  let t ← skipSomeBlanks t
  let t ← behind "NOT" t
  let t ← skipSomeBlanks t
  let t ← behind "EXISTS" t
  skipSomeBlanks t

/-- The name of a declared table and the text inside its opening parenthesis. -/
def blockHeader (t : List Char) : Option (List Char × List Char) := do
  let t ← behind "CREATE" t
  let t ← skipSomeBlanks t
  let t ← behind "TABLE" t
  let t ← skipSomeBlanks t
  let (name, t) ← leadingName ((behindGuard t).getD t)
  let t ← behind "(" (skipBlanks t)
  some (name, t)

/-- The table block at the front of a text, with its size. -/
def tableBlock (t : List Char) : Option (TableBlock × Nat) := do
  let (name, inside) ← blockHeader t
  let (body, rest) ← breakOn ");".toList inside
  some (⟨String.ofList name, body⟩, t.length - rest.length)

/-- The table blocks of a schema text, in order. -/
def tableBlocks (t : List Char) : List TableBlock := occurrences tableBlock t

end ColumnAudit.Schema
