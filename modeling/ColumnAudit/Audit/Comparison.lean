import ColumnAudit.Audit.Report
import ColumnAudit.Config.Basic
import ColumnAudit.Log
import ColumnAudit.Schema.Catalog
import ColumnAudit.Source.SourceFile

/-! # Comparing sources with a schema

Each source is compared with the columns of the tables that it is expected to use (`compareFile`), and
the entries of all sources make a report (`compare`). Sources of one kind are taken in the order of
their names, so the order in which they are given shows only where two have the same name.
-/

namespace ColumnAudit.Audit
open Schema Source
set_option autoImplicit false

/-- The names that a source uses, without those of its tables where the kind of the source leaves them
out. -/
def namesToCompare (config : Config) (kind : ScanKind) (source : SourceFile) : NameSet :=
  let names := kind.fields source.text
  if kind.leavesOutTables then withoutTables names (config.expectedTables source.name) else names

/-- The entry of one source. -/
def compareFile (catalog : Catalog) (config : Config) (kind : ScanKind) (source : SourceFile) :
    Entry :=
  let columns := catalog.columnsOf (config.expectedTables source.name).toList
  .ofClassification
    (classify (namesToCompare config kind source) columns (config.knownKeysFor kind))

namespace Report

/-- The report on no sources. -/
def empty : Report := ⟨.empty, .empty, .zero⟩

/-- The report with the entry of one more source. -/
def add (r : Report) (kind : ScanKind) (name : String) (entry : Entry) : Report :=
  let r := { r with totals := r.totals.record kind entry.tally }
  match kind with
  | .actions => { r with actions := r.actions.insert name entry }
  | .types => { r with types := r.types.insert name entry }

end Report

/-- Sources in the order of their names. -/
def byName (sources : List SourceFile) : List SourceFile :=
  sources.mergeSort fun a b => decide (a.name ≤ b.name)

/-- Adds the entries of the sources of one kind to a report. -/
def compareKind (catalog : Catalog) (config : Config) (sources : Sources) (r : Report)
    (kind : ScanKind) : Report :=
  (byName (sources.ofKind kind)).foldl (fun r source =>
    r.add kind source.name (compareFile catalog config kind source)) r

/-- The report on sources. -/
def compare (catalog : Catalog) (config : Config) (sources : Sources) : Report :=
  ScanKind.all.foldl (compareKind catalog config sources) .empty

/-! ## Log records -/

/-- A record of the audit. -/
def auditRecord (level : LogLevel) (text : String) : LogRecord := ⟨level, .audit, text⟩

/-- What is said about the expected tables that the schema does not declare. -/
def undeclaredRecords (catalog : Catalog) (config : Config) : List LogRecord :=
  (config.fileTables.entries.flatMap fun (_, tables) =>
    tables.toList.filter fun table => !catalog.declares table).map fun table =>
      auditRecord .warn ("Expected table '" ++ table ++ "' is not declared in the schema")

/-- What is said about one source. -/
def fileRecords (catalog : Catalog) (config : Config) (kind : ScanKind) (source : SourceFile) :
    List LogRecord :=
  let unmapped :=
    if (config.expectedTables source.name).isEmpty then
      [auditRecord .debug
        ("No expected tables mapped for " ++ kind.name ++ " file '" ++ source.name ++ "'")]
    else []
  let tally := (compareFile catalog config kind source).tally
  unmapped ++ [auditRecord .debug (kind.name ++ " '" ++ source.name ++ "': " ++
    toString (namesToCompare config kind source).size ++ " extracted, " ++
    toString tally.matched ++ "/" ++ toString tally.total ++ " matched")]

/-- What is said while sources are compared. -/
def compareRecords (catalog : Catalog) (config : Config) (sources : Sources) : List LogRecord :=
  undeclaredRecords catalog config ++ ScanKind.all.flatMap fun kind =>
    (byName (sources.ofKind kind)).flatMap (fileRecords catalog config kind)

end ColumnAudit.Audit
