import ColumnAudit.Source.QueryFields
import ColumnAudit.Source.TypeKeys

/-! # Scan kinds

Sources come in two kinds: modules that access data, read for query calls, and modules that declare
types, read for keys.
-/

namespace ColumnAudit.Source
set_option autoImplicit false

/-- The two kinds of sources. -/
inductive ScanKind where
  /-- Data-access modules. -/
  | actions
  /-- Type declarations. -/
  | types
deriving DecidableEq, Repr

namespace ScanKind

/-- Both kinds, in the order in which they are scanned. -/
def all : List ScanKind := [actions, types]

/-- The name of a kind. -/
def name : ScanKind → String
  | actions => "actions"
  | types => "types"

/-- Whether names of expected tables are left out before the comparison. -/
def leavesOutTables : ScanKind → Bool
  | actions => true
  | types => false

/-- Whether the list of keys known not to be columns belongs to the kind. -/
def usesKnownKeys : ScanKind → Bool
  | actions => false
  | types => true

/-- The kind of that very name. -/
def ofName? (s : String) : Option ScanKind := all.find? fun k => k.name == s

/-- The kind of that name, with ASCII letters in either case. -/
def ofNameIgnoringCase? (s : String) : Option ScanKind :=
  ofName? (String.ofList (s.toList.map Char.toLower))

/-- What is said about an argument that names no kind. -/
def unknownArgument (s : String) : String := "invalid variant: " ++ s

/-- What is said about a word in a document that names no kind. -/
def unknownWord (s : String) : String :=
  "unknown variant \x60" ++ s ++ "\x60, expected " ++
    " or ".intercalate (all.map fun k => "\x60" ++ k.name ++ "\x60")

/-- The names that a source of the kind uses. -/
def fields : ScanKind → String → NameSet
  | actions, text => queryFields text
  | types, text => typeKeys text

end ScanKind
end ColumnAudit.Source
