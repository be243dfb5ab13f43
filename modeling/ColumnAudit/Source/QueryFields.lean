import ColumnAudit.NameSet
import ColumnAudit.Source.SnakeCase

/-! # Column names in query calls

Three kinds of calls of a query builder name columns:

* a projection, `.select(...)` with a quoted list: the snake-case names between the quotes;
* a predicate, `.eq('name', ...)` and its kin: the quoted first argument, as it stands;
* a write payload, `.insert({ ... })` or `.update({ ... })`: the snake-case keys in the braces.

Each kind is looked for on its own in the whole text, and the results are united.
-/

namespace ColumnAudit.Source
open Text
set_option autoImplicit false

/-- Operations whose first quoted argument is a column name. -/
def predicateOperations : List String :=
  ["eq", "neq", "gt", "gte", "lt", "lte", "order", "not", "in"]

/-- Operations that take an object of column values. -/
def writeOperations : List String := ["insert", "update"]

/-- The kinds of calls that name columns. -/
inductive QueryRule where
  /-- Snake-case names in the quoted argument of a select call. -/
  | projection
  /-- The quoted first argument of a comparison or ordering call. -/
  | predicate
  /-- Snake-case keys of the object given to a write call. -/
  | writePayload
deriving DecidableEq, Repr

namespace QueryRule

/-- Every rule, in the order in which they are applied. -/
def all : List QueryRule := [projection, predicate, writePayload]

end QueryRule

/-- The front of a call as a pattern: a dot, one of the operations, and what opens its argument. -/
def callOpening (operations : List String) (opening : String) : Pattern :=
  .seq (.literal ['.']) (.seq (.among operations) (.literal opening.toList))

/-! ## Projections -/

/-- A text between two quotes, as short as possible; the text is the group. -/
def quotedBy (quote : Char) : Grouped :=
  .lead (.literal [quote]) (.trail (.group (.few .any)) (.literal [quote]))

/-- A select call with a quoted argument as a pattern. The group is what stands between the quote and the
next such quote with a closing parenthesis behind it. -/
def selectPattern : Grouped :=
  .lead (.literal ".select(".toList)
    (.trail (.either (quotedBy '\x60') (.either (quotedBy '\x27') (quotedBy '\"'))) (.literal [')']))

/-- The names in all select lists of a text. -/
def projectionNames (t : List Char) : List String := (selectPattern.captured t).flatMap snakeNames

/-! ## Predicates -/

/-- Characters of a quoted column name. -/
def isColumnChar (c : Char) : Bool := c.isLower || c == '_'

/-- A predicate call up to its quoted first argument as a pattern; the argument is the group. -/
def predicatePattern : Grouped :=
  .lead (callOpening predicateOperations "('")
    (.trail (.group (.many (.one isColumnChar))) (.literal ['\x27']))

/-- The names in all predicate calls of a text. -/
def predicateNames (t : List Char) : List String := (predicatePattern.captured t).map String.ofList

/-! ## Write payloads -/

/-- A write call as a pattern. The group is the inside of the object given to it, up to the next closing
brace with a closing parenthesis behind it. -/
def payloadPattern : Grouped :=
  .lead (callOpening writeOperations "(\x7b")
    (.trail (.group (.few .any)) (.literal "\x7d)".toList))

/-- The keys in all write payloads of a text. -/
def payloadKeys (t : List Char) : List String := (payloadPattern.captured t).flatMap snakeKeys

/-! ## All rules -/

/-- The names that a rule finds in a text, in the order in which it finds them. -/
def QueryRule.names : QueryRule → List Char → List String
  | projection, t => projectionNames t
  | predicate, t => predicateNames t
  | writePayload, t => payloadKeys t

/-- Adds what a rule finds in a text to a set. -/
def QueryRule.addFields (rule : QueryRule) (text : String) (fields : NameSet) : NameSet :=
  fields.insertMany (rule.names text.toList)

/-- The names that any rule finds in a text. -/
def queryFields (text : String) : NameSet :=
  QueryRule.all.foldl (fun fields rule => rule.addFields text fields) NameSet.empty

end ColumnAudit.Source
