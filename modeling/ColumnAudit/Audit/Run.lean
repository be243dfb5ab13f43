import ColumnAudit.Audit.Comparison
import ColumnAudit.Task

/-! # Audits of files

An audit reads the schema and all sources that a configuration names, and compares them. One file
that cannot be read ends it.
-/

namespace ColumnAudit.Audit
open Files Schema Source
set_option autoImplicit false

variable {m : Type → Type} [Monad m] [ReadsFiles m]

/-- The names of a folder's files with an extension, in ascending order. -/
def sourceNames (extension : String) (members : List (String × Bool)) : List String :=
  ((members.filter fun (name, isFile) => isFile && extension? name == some extension).map
    Prod.fst).mergeSort fun a b => decide (a ≤ b)

/-- The paths of the files in a folder that have an extension. A folder that is not there has
none. -/
def discover (folder : Path) (extension : String) : Task m (List Path) := do
  if ← Task.isPresent folder then
    let members ← Task.attempt (ReadsFiles.list folder) (.folderNotListed folder)
    return (sourceNames extension members).map fun name => folder.join ⟨name⟩
  Task.log [auditRecord .warn
    ("Source directory " ++ folder.quoted ++ " does not exist; skipping")]
  return []

/-- Reads a source. -/
def readSource (path : Path) : Task m SourceFile := do
  match path.fileName? with
  | some name => return ⟨name, ← Task.readText path (.sourceNotRead path)⟩
  | none => throw (.sourceUnnamed path)

/-- Reads the sources of one kind. -/
def loadKind (config : Config) (kind : ScanKind) : Task m (List SourceFile) := do
  let folder := config.folder kind
  let sources ← (← discover folder config.normalExtension).mapM readSource
  Task.log [auditRecord .debug ("Discovered " ++ toString sources.length ++ " " ++ kind.name ++
    " file(s) in " ++ folder.quoted)]
  return sources

/-- Reads the sources of both kinds. -/
def loadSources (config : Config) : Task m Sources := do
  let actions ← loadKind config .actions
  let types ← loadKind config .types
  return ⟨actions, types⟩

/-- Reads a schema, and says in the name of a part of the program how many tables it declares. -/
def loadCatalog (path : Path) (origin : LogOrigin) : Task m Catalog := do
  let catalog := Catalog.parse (← Task.readText path (.schemaNotRead path))
  Task.log [⟨.info, origin, "Parsed " ++ toString catalog.size ++ " table(s) from " ++
    path.quoted⟩]
  return catalog

/-- Audits the files that a configuration names. -/
def run (config : Config) : Task m Report := do
  let catalog ← loadCatalog config.schema .audit
  let sources ← loadSources config
  Task.log (compareRecords catalog config sources)
  let report := compare catalog config sources
  let overall := report.totals.overall
  Task.log [auditRecord .info ("Overall db_only alignment: " ++ toString overall.matched ++ "/" ++
    toString overall.total ++ " (" ++ overall.percentage.plain ++ "%)")]
  return report

end ColumnAudit.Audit
