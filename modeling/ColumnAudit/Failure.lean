import ColumnAudit.Config.Decoding
import ColumnAudit.Files.Tree

/-! # Failures

Why a run ends without a result. Each failure names the file or folder at fault and its cause.
-/

namespace ColumnAudit
open Files
set_option autoImplicit false

/-- Why a file could not be read as text. -/
inductive TextFault where
  | file (e : FileError)
  | notUtf8
deriving DecidableEq, Repr

/-- What is said about a file that could not be read as text. -/
def TextFault.message : TextFault → String
  | file e => e.message
  | notUtf8 => "stream did not contain valid UTF-8"

/-- Why a run failed. -/
inductive Failure where
  | configNotOpened (path : Path) (e : FileError)
  | configNotRead (path : Path) (e : FileError)
  | configNotUnderstood (path : Path) (fault : ConfigFault)
  | configFlawed (path : Path) (flaw : Config.Flaw)
  | schemaNotRead (path : Path) (fault : TextFault)
  | sourceUnnamed (path : Path)
  | sourceNotRead (path : Path) (fault : TextFault)
  | folderNotListed (path : Path) (e : FileError)
  | outputPresent (path : Path)
  | outputNotMade (path : Path) (e : FileError)
deriving DecidableEq, Repr

/-- What is said about a failure. -/
def Failure.message : Failure → String
  | configNotOpened path e => "Opening config file " ++ path.quoted ++ ": " ++ e.message
  | configNotRead path e => "Parsing config file " ++ path.quoted ++ ": " ++ e.message
  | configNotUnderstood path fault =>
    "Parsing config file " ++ path.quoted ++ ": " ++ fault.message
  | configFlawed path flaw => "Validating config file " ++ path.quoted ++ ": " ++ flaw.message
  | schemaNotRead path fault => "Reading schema from " ++ path.quoted ++ ": " ++ fault.message
  | sourceUnnamed path => "Source path " ++ path.quoted ++ " has no file name"
  | sourceNotRead path fault => "Reading source file " ++ path.quoted ++ ": " ++ fault.message
  | folderNotListed path e => "Listing directory " ++ path.quoted ++ ": " ++ e.message
  | outputPresent path =>
    "Config file " ++ path.quoted ++ " already exists; pass --force to overwrite"
  | outputNotMade path e =>
    "Writing default config to " ++ path.quoted ++ ": Creating config file " ++ path.quoted ++
      ": " ++ e.message

end ColumnAudit
