import ColumnAudit.Task

/-! # Configuration files

A configuration is read from a file and has to be without flaws; where no file is given, the standard
one is in force. Any configuration can be written to a file.
-/

namespace ColumnAudit
open Files
set_option autoImplicit false

namespace Config

/-- The configuration that bytes hold. -/
def ofBytes (bytes : ByteArray) : Except ConfigFault Config :=
  match String.fromUTF8? bytes with
  | some text => read text
  | none => .error (.malformed ⟨.notUtf8, .origin⟩)

/-- The configuration that the bytes of a file hold, if it has no flaw. -/
def ofFile (path : Path) (bytes : ByteArray) : Except Failure Config :=
  match ofBytes bytes with
  | .error fault => .error (.configNotUnderstood path fault)
  | .ok config =>
    match config.flaw? with
    | some flaw => .error (.configFlawed path flaw)
    | none => .ok config

/-- Why a configuration file cannot be read. A folder is opened like a file and only then refused. -/
def unreadable (path : Path) : FileError → Failure
  | .isAFolder => .configNotRead path .isAFolder
  | e => .configNotOpened path e

variable {m : Type → Type} [Monad m] [ReadsFiles m]

/-- Loads a configuration file. -/
def load (path : Path) : Task m Config := do
  let bytes ← Task.attempt (ReadsFiles.read path) (unreadable path)
  let config ← Task.ofExcept (ofFile path bytes)
  Task.log [⟨.debug, .config, "Loaded config from " ++ path.quoted ++ " (" ++
    toString config.fileTables.size ++ " mapped file(s))"⟩]
  return config

/-- Loads a configuration file if one is given. -/
def loadOrStandard : Option Path → Task m Config
  | some path => load path
  | none => return .standard

/-- Writes a configuration to a file. -/
def save {m : Type → Type} [WritesFiles m] (c : Config) (path : Path) :
    m (Except FileError Unit) :=
  WritesFiles.write path c.yaml.toUTF8

end Config
end ColumnAudit
