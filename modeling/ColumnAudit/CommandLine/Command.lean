import ColumnAudit.Audit.Threshold
import ColumnAudit.Files.Path
import ColumnAudit.Source.ScanKind

/-! # Commands

What the program can be asked to do, and why a list of arguments asks for nothing of that.
-/

namespace ColumnAudit.CommandLine
open Audit Files Number Source
set_option autoImplicit false

/-- The forms in which results are printed. -/
inductive OutputFormat where
  | json
  | table
deriving DecidableEq, Repr

namespace OutputFormat

/-- Both forms. -/
def all : List OutputFormat := [json, table]

/-- The name of a form. -/
def name : OutputFormat → String
  | json => "json"
  | table => "table"

/-- The form of that very name. -/
def ofName? (s : String) : Option OutputFormat := all.find? fun f => f.name == s

end OutputFormat

/-- What is asked of an audit. Paths that are given replace those of the configuration. -/
structure AuditRequest where
  /-- The percentage below which the audit fails. -/
  threshold : Option Binary64
  format : OutputFormat
  config : Option Path
  root : Path
  schema : Option Path
  actionsFolder : Option Path
  typesFolder : Option Path
deriving DecidableEq, Repr

/-- What the program can be asked to do. -/
inductive Command where
  /-- Compare sources with a schema. -/
  | audit (request : AuditRequest)
  /-- List the tables of a schema. -/
  | catalog (schema : Path) (format : OutputFormat)
  /-- List the names that a source uses. -/
  | fields (input : Path) (kind : ScanKind)
  /-- Write the standard configuration to a file. -/
  | configInit (output : Path) (force : Bool)
  /-- Print a configuration. -/
  | configShow (config : Option Path)
deriving DecidableEq, Repr

/-- Why arguments are no command. -/
inductive Refusal where
  | unknownArgument
  | invalidValue
  | invalidThreshold (fault : ThresholdFault)
  | unknownCommand
  | missingCommand
  | missingOption
  | repeatedOption
  | needlessValue
  /-- Help is asked for. -/
  | help
  /-- The version is asked for. -/
  | version
deriving DecidableEq, Repr

namespace Refusal

/-- What is said about arguments that are no command. -/
def message : Refusal → String
  | unknownArgument => "unexpected argument"
  | invalidValue => "invalid value of an option"
  | invalidThreshold fault => fault.message
  | unknownCommand => "unknown command"
  | missingCommand => "a command is missing"
  | missingOption => "a required option is missing"
  | repeatedOption => "an option is repeated"
  | needlessValue => "a value for an option that takes none"
  | help => "commands: audit, catalog, fields, config init, config show"
  | version => "schema-audit"

/-- The exit status: asking for help or the version is no mistake. -/
def status : Refusal → UInt8
  | help => 0
  | version => 0
  | _ => 2

end Refusal
end ColumnAudit.CommandLine
