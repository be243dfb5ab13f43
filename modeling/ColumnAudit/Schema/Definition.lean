import ColumnAudit.Text.Identifier
import ColumnAudit.Text.Scan

/-! # Column definitions

The body of a table declaration is a list of definitions. A body over several lines has one on each
line; a body on a single line is cut at its top-level commas, up to a line comment.

* `stripComment` drops a line comment that stands outside string literals.
* `splitTopLevel` cuts at the commas outside string literals and parentheses.
* `columnName` is the identifier that a definition starts with, unless it is a constraint.
-/

namespace ColumnAudit.Schema
open Text
set_option autoImplicit false

/-! ## Cutting a body into definitions -/

/-- The text up to the first `--` outside string literals; `literal` says that the text starts
inside one. A quote opens and closes a literal, so a doubled quote changes nothing. -/
def stripCommentFrom (literal : Bool) : List Char → List Char
  | [] => []
  | c :: cs =>
    if c = '\x27' then c :: stripCommentFrom (!literal) cs
    else if !literal && c == '-' && cs.head? == some '-' then []
    else c :: stripCommentFrom literal cs

/-- A line without its comment. -/
def stripComment (line : List Char) : List Char := stripCommentFrom false line

/-- Puts a character in front of the first piece. -/
def consFirst (c : Char) : List (List Char) → List (List Char)
  | [] => [[c]]
  | p :: ps => (c :: p) :: ps

/-- The pieces between top-level commas of a text that starts inside a literal or not, and inside
`depth` open parentheses. A closing parenthesis without an open one is passed over. -/
def splitFrom (literal : Bool) (depth : Nat) : List Char → List (List Char)
  | [] => [[]]
  | c :: cs =>
    if c = '\x27' then consFirst c (splitFrom (!literal) depth cs)
    else if literal then consFirst c (splitFrom literal depth cs)
    else if c = '(' then consFirst c (splitFrom literal (depth + 1) cs)
    else if c = ')' then consFirst c (splitFrom literal (depth - 1) cs)
    else if c = ',' ∧ depth = 0 then [] :: splitFrom literal depth cs
    else consFirst c (splitFrom literal depth cs)

/-- The pieces between the commas outside literals and parentheses. -/
def splitTopLevel (line : List Char) : List (List Char) := splitFrom false 0 line

/-- The definitions of a table body. -/
def definitions (body : List Char) : List (List Char) :=
  if (trim body).contains '\n' then lines body else splitTopLevel (stripComment body)

/-! ## The column of a definition -/

/-- The words that open a constraint; a definition is a constraint as soon as it starts with the
letters of one of them, in either case. -/
def constraintOpenings : List String :=
  ["CONSTRAINT", "PRIMARY KEY", "FOREIGN KEY", "UNIQUE", "CHECK"]

/-- Whether a trimmed definition opens a constraint. -/
def isConstraint (t : List Char) : Bool :=
  constraintOpenings.any fun w => w.toList.isPrefixOf (t.map Char.toUpper)

/-- Whether a trimmed definition is a comment. -/
def isComment (t : List Char) : Bool := "--".toList.isPrefixOf t

/-- The identifier at the front of a definition, if a blank or the end follows it and the
definition is neither a comment nor a constraint. -/
def columnName (definition : List Char) : Option String :=
  let t := trim definition
  if isComment t || isConstraint t then none
  else match leading isFoldedStart isFoldedPart t with
    | none => none
    | some (name, rest) =>
      if rest.head?.all isBlank then some (String.ofList name) else none

example : columnName " price numeric(10, 2)".toList = some "price" := by decide +kernel
example : columnName "check_in date".toList = none := by decide +kernel
example : columnName "a.b int".toList = none := by decide +kernel

/-- The columns that a table body defines, in order. -/
def bodyColumns (body : List Char) : List String := (definitions body).filterMap columnName

end ColumnAudit.Schema
