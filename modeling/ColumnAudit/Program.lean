import ColumnAudit.Audit.Run
import ColumnAudit.CommandLine.Arguments
import ColumnAudit.Config.Loading

/-! # Running commands

Each command is a task that ends with the text it prints. An audit whose percentage falls short of
its threshold has printed its report all the same. `Program.run` gives all that a run shows: the
text, the log records, a last message and the exit status.
-/

namespace ColumnAudit.Program
open Audit CommandLine Files Schema Source
set_option autoImplicit false

/-- What a command ends with. -/
structure Result where
  output : String
  shortfall : Option Shortfall
deriving DecidableEq, Repr

/-! ## Printed results -/

/-- A report in a form. -/
def reportText (report : Report) : OutputFormat → String
  | .json => report.json.render ++ "\n"
  | .table => report.table.render

/-- A catalog as a JSON document. -/
def catalogJson (catalog : Catalog) : Json :=
  .object (catalog.tables.entries.map fun (name, columns) => (name, namesJson columns))

/-- A catalog as a table. -/
def catalogTable (catalog : Catalog) : Table :=
  (catalog.tables.entries.map fun (name, columns) =>
    [name, toString columns.size, columns.listed]).foldl Table.addRow
      ((Table.ofHeaders ["table", "columns", "names"]).align 1 .right)

/-- A catalog in a form. -/
def catalogText (catalog : Catalog) : OutputFormat → String
  | .json => (catalogJson catalog).render ++ "\n"
  | .table => (catalogTable catalog).render

/-- Names, one on each line. -/
def namesText (names : NameSet) : String := String.join (names.toList.map (· ++ "\n"))

/-! ## Commands as tasks -/

/-- A record of the program itself. -/
def programRecord (level : LogLevel) (text : String) : LogRecord := ⟨level, .program, text⟩

/-- The configuration that an audit works with. -/
def effectiveConfig (request : AuditRequest) (config : Config) : Config :=
  Config.resolve { config with
    schema := request.schema.getD config.schema
    actionsFolder := request.actionsFolder.getD config.actionsFolder
    typesFolder := request.typesFolder.getD config.typesFolder } request.root

section Tasks
variable {m : Type → Type} [Monad m] [ReadsFiles m]

/-- Compares sources with a schema. -/
def runAudit (request : AuditRequest) : Task m Result := do
  let config := effectiveConfig request (← Config.loadOrStandard request.config)
  Task.log [programRecord .debug ("Effective audit config: " ++ config.quoted)]
  let report ← Audit.run config
  return ⟨reportText report request.format, shortfall? report.overallPercentage request.threshold⟩

/-- Lists the tables of a schema. -/
def runCatalog (schema : Path) (format : OutputFormat) : Task m Result := do
  return ⟨catalogText (← loadCatalog schema .program) format, none⟩

/-- Lists the names that a source uses. -/
def runFields (input : Path) (kind : ScanKind) : Task m Result := do
  let names := kind.fields (← readSource input).text
  Task.log [programRecord .info ("Extracted " ++ toString names.size ++ " " ++ kind.name ++
    " field(s) from " ++ input.quoted)]
  return ⟨namesText names, none⟩

/-- Prints a configuration. -/
def runConfigShow (path : Option Path) : Task m Result := do
  return ⟨(← Config.loadOrStandard path).yaml, none⟩

variable [WritesFiles m]

/-- Writes the standard configuration to a file. A file that is there is only replaced by force. -/
def runConfigInit (output : Path) (force : Bool) : Task m Result := do
  if (← Task.isPresent output) && !force then throw (.outputPresent output)
  Task.attempt (Config.standard.save output) (.outputNotMade output)
  Task.log [programRecord .info ("Default audit config written to " ++ output.quoted)]
  return ⟨"", none⟩

/-- Does what a command asks for. -/
def perform : Command → Task m Result
  | .audit request => runAudit request
  | .catalog schema format => runCatalog schema format
  | .fields input kind => runFields input kind
  | .configInit output force => runConfigInit output force
  | .configShow config => runConfigShow config

end Tasks

/-! ## What a run shows -/

/-- All that a run shows. -/
structure Outcome where
  output : String
  log : List LogRecord
  message : Option String
  status : UInt8
deriving DecidableEq, Repr

/-- What a run shows whose task has ended. -/
def Outcome.ofResult (log : List LogRecord) : Except Failure Result → Outcome
  | .ok ⟨output, none⟩ => ⟨output, log, none, 0⟩
  | .ok ⟨output, some shortfall⟩ => ⟨output, log, some shortfall.message, 1⟩
  | .error failure => ⟨"", log, some ("error: " ++ failure.message), 2⟩

/-- The text of the log and the last message, as a filter lets them through. -/
def Outcome.diagnostics (outcome : Outcome) (filter : LogFilter) : String :=
  String.join ((outcome.log.filter filter.shows).map LogRecord.line) ++
    match outcome.message with
    | some message => message ++ "\n"
    | none => ""

/-- Runs a command. -/
def run {m : Type → Type} [Monad m] [ReadsFiles m] [WritesFiles m] (command : Command) :
    m Outcome := do
  let (result, log) ← ((perform command : Task m Result).run).run []
  return .ofResult log result

/-- Runs the command that arguments ask for. Arguments that ask for none are refused. -/
def invoke {m : Type → Type} [Monad m] [ReadsFiles m] [WritesFiles m] (arguments : List String) :
    m (Except Refusal Outcome) :=
  match CommandLine.parse arguments with
  | .error refusal => return .error refusal
  | .ok command => do return .ok (← run command)

/-- The exit status of the program. -/
def exitStatus : Except Refusal Outcome → UInt8
  | .error refusal => refusal.status
  | .ok outcome => outcome.status

end ColumnAudit.Program
