import ColumnAudit.Failure
import ColumnAudit.Files.Access
import ColumnAudit.Log

/-! # Tasks

A task works on files, writes log records and may fail. The records written before a failure remain.
-/

namespace ColumnAudit
open Files
set_option autoImplicit false

/-- A task in a place `m` with files. -/
abbrev Task (m : Type → Type) (α : Type) := ExceptT Failure (StateT (List LogRecord) m) α

namespace Task
variable {m : Type → Type} [Monad m]

/-- Writes log records. -/
def log (records : List LogRecord) : Task m Unit := modify (· ++ records)

/-- Goes on with a result or ends with a failure. -/
def ofExcept {α : Type} : Except Failure α → Task m α
  | .ok a => return a
  | .error e => throw e

/-- Does a step on files, which may fail. -/
def attempt {α : Type} (step : m (Except FileError α)) (failure : FileError → Failure) :
    Task m α := do
  match ← (monadLift step : StateT (List LogRecord) m (Except FileError α)) with
  | .ok a => return a
  | .error e => throw (failure e)

variable [ReadsFiles m]

/-- Whether a path leads to anything. -/
def isPresent (path : Path) : Task m Bool :=
  (monadLift (ReadsFiles.isPresent path : m Bool) : StateT (List LogRecord) m Bool)

/-- The text of a file. -/
def readText (path : Path) (failure : TextFault → Failure) : Task m String := do
  let bytes ← attempt (ReadsFiles.read path) fun e => failure (.file e)
  match String.fromUTF8? bytes with
  | some text => return text
  | none => throw (failure .notUtf8)

end Task
end ColumnAudit
