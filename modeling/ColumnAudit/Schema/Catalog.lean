import ColumnAudit.NameMap
import ColumnAudit.Schema.TableBlock

/-! # The catalog of a schema

A catalog says which tables a schema declares and which columns each of them has. A table that is
declared again has the columns of its last declaration.
-/

namespace ColumnAudit.Schema
set_option autoImplicit false

/-- The declared tables with their columns. -/
structure Catalog where
  tables : NameMap NameSet
deriving DecidableEq

namespace Catalog

/-- The catalog of a list of table blocks. -/
def ofBlocks (blocks : List TableBlock) : Catalog where
  tables := NameMap.ofList (blocks.map fun b => (b.name, NameSet.ofList (bodyColumns b.body)))

/-- The catalog of a schema text. -/
def parse (sql : String) : Catalog := ofBlocks (tableBlocks sql.toList)

/-- The columns of a table, if it is declared. -/
def columns? (c : Catalog) (table : String) : Option NameSet := c.tables.find? table

/-- Whether a table is declared. -/
def declares (c : Catalog) (table : String) : Bool := c.tables.contains table

/-- The columns of all tables in a list; a table that is not declared adds none. -/
def columnsOf (c : Catalog) (tables : List String) : NameSet :=
  (tables.filterMap c.columns?).foldl NameSet.union NameSet.empty

/-- How many tables are declared. -/
def size (c : Catalog) : Nat := c.tables.size

end Catalog
end ColumnAudit.Schema
