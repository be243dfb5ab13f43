import ColumnAudit.Config.Basic
import ColumnAudit.Yaml.Outline

/-! # Configurations as documents

A configuration is a mapping with one field for each thing that it says. All fields are written, in
a fixed order.
-/

namespace ColumnAudit
open Yaml
set_option autoImplicit false

/-- The fields of a configuration. -/
inductive ConfigField where
  | schema
  | actionsFolder
  | typesFolder
  | extension
  | fileTables
  | knownKeys
deriving DecidableEq, Repr

namespace ConfigField

/-- All fields, in the order in which they are written. -/
def all : List ConfigField :=
  [schema, actionsFolder, typesFolder, extension, fileTables, knownKeys]

/-- The name of a field in a document. -/
def name : ConfigField → String
  | schema => "schema"
  | actionsFolder => "actions_dir"
  | typesFolder => "types_dir"
  | extension => "extension"
  | fileTables => "file_tables"
  | knownKeys => "non_db_type_keys"

/-- The field of that name. -/
def ofName? (s : String) : Option ConfigField := all.find? fun f => f.name == s

end ConfigField

namespace Config

/-- A set of names as a sequence. -/
def namesOutline (s : NameSet) : Outline := .sequence (s.toList.map .text)

/-- The value of a field. -/
def fieldOutline (c : Config) : ConfigField → Outline
  | .schema => .text c.schema.text
  | .actionsFolder => .text c.actionsFolder.text
  | .typesFolder => .text c.typesFolder.text
  | .extension => .text c.extension
  | .fileTables =>
    .mapping (c.fileTables.entries.map fun (file, tables) => (file, namesOutline tables))
  | .knownKeys => namesOutline c.knownKeys

/-- The document that holds some fields of a configuration. -/
def document (c : Config) (fields : List ConfigField) : String :=
  Outline.document (fields.map fun f => (f.name, c.fieldOutline f))

/-- A configuration as a document. -/
def yaml (c : Config) : String := c.document ConfigField.all

/-! ## In log records -/

/-- A set of names in a log record. -/
def quotedNames (s : NameSet) : String :=
  "\x7b" ++ ", ".intercalate (s.toList.map Text.quoted) ++ "\x7d"

/-- The expected tables in a log record. -/
def quotedTables (m : NameMap NameSet) : String :=
  "\x7b" ++ ", ".intercalate (m.entries.map fun (file, tables) =>
    Text.quoted file ++ ": " ++ quotedNames tables) ++ "\x7d"

/-- The value of a field in a log record. -/
def quotedField (c : Config) : ConfigField → String
  | .schema => c.schema.quoted
  | .actionsFolder => c.actionsFolder.quoted
  | .typesFolder => c.typesFolder.quoted
  | .extension => Text.quoted c.extension
  | .fileTables => quotedTables c.fileTables
  | .knownKeys => quotedNames c.knownKeys

/-- A configuration in a log record. -/
def quoted (c : Config) : String :=
  "AuditConfig \x7b " ++
    ", ".intercalate (ConfigField.all.map fun f => f.name ++ ": " ++ c.quotedField f) ++ " \x7d"

end Config
end ColumnAudit
