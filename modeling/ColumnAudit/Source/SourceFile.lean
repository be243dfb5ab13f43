import ColumnAudit.Source.ScanKind

/-! # Sources

The sources of an audit are texts with names, in two lists, one for each kind.
-/

namespace ColumnAudit.Source
set_option autoImplicit false

/-- A source with the name of its file. -/
structure SourceFile where
  name : String
  text : String
deriving DecidableEq, Repr

/-- The sources of an audit, by kind. -/
structure Sources where
  actions : List SourceFile
  types : List SourceFile
deriving DecidableEq, Repr

namespace Sources

/-- The sources of one kind. -/
def ofKind (s : Sources) : ScanKind → List SourceFile
  | .actions => s.actions
  | .types => s.types

end Sources
end ColumnAudit.Source
