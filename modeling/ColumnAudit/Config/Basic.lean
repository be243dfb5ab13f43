import ColumnAudit.Files.Path
import ColumnAudit.NameMap
import ColumnAudit.Source.ScanKind
import ColumnAudit.Text.Blank

/-! # Audit configurations

A configuration says where the schema and the sources are, which tables each source is expected to
use and which type keys are known not to be columns.
-/

namespace ColumnAudit
open Files Source
set_option autoImplicit false

/-- What an audit works on. -/
structure Config where
  /-- The file with the table declarations. -/
  schema : Path
  actionsFolder : Path
  typesFolder : Path
  /-- The extension of the sources, perhaps with dots in front. -/
  extension : String
  /-- The tables that each source is expected to use. -/
  fileTables : NameMap NameSet
  /-- Keys of type declarations that are known not to be columns. -/
  knownKeys : NameSet
deriving DecidableEq

namespace Config

/-! ## The configuration in force when none is given -/

/-- The tables that the sources of the standard layout use. -/
def standardTables : List (String × List String) :=
  [("auth.ts", ["users", "otp_records", "auth_flow_tokens"]),
    ("event.ts", ["events", "categories", "event_images", "ticket_types"]),
    ("profile.ts", ["users"]),
    ("ticket.ts", ["tickets", "ticket_types", "events", "event_images"])]

/-- The keys of the standard layout that are not columns. -/
def standardKeys : List String :=
  ["success", "message", "token", "redirectTo", "needsVerification", "attemptsRemaining",
    "resetToken", "purpose", "remainingSeconds", "canResend", "data", "profile", "imageUrl",
    "primary_image", "category", "start_ticket_price", "images", "ticket_types", "ticket_type",
    "event"]

/-- The standard layout: one migration file, and a folder for each kind of sources. -/
def standard : Config where
  schema := ⟨"supabase/migrations/20260223191944_initial_schema.sql"⟩
  actionsFolder := ⟨"src/lib/actions"⟩
  typesFolder := ⟨"src/lib/types"⟩
  extension := "ts"
  fileTables := NameMap.ofList (standardTables.map fun (file, tables) => (file, .ofList tables))
  knownKeys := NameSet.ofList standardKeys

/-! ## Questions to a configuration -/

/-- The extension of the sources without blanks around it and without dots in front. -/
def normalExtension (c : Config) : String :=
  String.ofList ((Text.trim c.extension.toList).dropWhile (· == '.'))

/-- The folder with the sources of a kind. -/
def folder (c : Config) : ScanKind → Path
  | .actions => c.actionsFolder
  | .types => c.typesFolder

/-- The tables that a source is expected to use. -/
def expectedTables (c : Config) (file : String) : NameSet := (c.fileTables.find? file).getD .empty

/-- The keys that are known not to be columns in sources of a kind. -/
def knownKeysFor (c : Config) (kind : ScanKind) : NameSet :=
  if kind.usesKnownKeys then c.knownKeys else .empty

/-- The configuration seen from a root folder: paths that are not absolute start there. -/
def resolve (c : Config) (root : Path) : Config :=
  { c with
    schema := root.join c.schema
    actionsFolder := root.join c.actionsFolder
    typesFolder := root.join c.typesFolder }

/-! ## Flaws -/

/-- Why a configuration cannot be used. -/
inductive Flaw where
  | emptyExtension
  | emptyFileName
  | emptyTableName (file : String)
deriving DecidableEq, Repr

/-- What is said about a flaw. -/
def Flaw.message : Flaw → String
  | emptyExtension => "Source file extension cannot be empty"
  | emptyFileName => "Mapped file name cannot be empty"
  | emptyTableName file => "File '" ++ file ++ "' maps to an empty table name"

/-- Whether a name has no characters but blanks. -/
def isBlankName (name : String) : Bool := name.toList.all Text.isBlank

/-- The flaw of an entry of the expected tables, if it has one. -/
def entryFlaw? (entry : String × NameSet) : Option Flaw :=
  if isBlankName entry.1 then some .emptyFileName
  else if entry.2.toList.any isBlankName then some (.emptyTableName entry.1)
  else none

/-- The first flaw of a configuration, if it has one. -/
def flaw? (c : Config) : Option Flaw :=
  if c.normalExtension = "" then some .emptyExtension
  else c.fileTables.entries.findSome? entryFlaw?

end Config
end ColumnAudit
