import ColumnAudit.Program

/-! # The program

Runs the command that the arguments ask for on the files at hand.
-/

namespace ColumnAudit
open Files
set_option autoImplicit false

/-- What a number of the system, which may have a sign, says about a file. -/
def fileErrorOfCode (code : UInt32) (details : String) : FileError :=
  let number := if code.toNat < 2147483648 then code.toNat else 4294967296 - code.toNat
  if number = 2 then .notFound
  else if number = 20 then .notAFolder
  else if number = 21 then .isAFolder
  else .other (details ++ " (os error " ++ toString number ++ ")")

/-- What an answer of the system says about a file. -/
def fileErrorOf : IO.Error → FileError
  | .noFileOrDirectory _ code details => fileErrorOfCode code details
  | .inappropriateType _ code details => fileErrorOfCode code details
  | .permissionDenied _ code details => fileErrorOfCode code details
  | .otherError code details => fileErrorOfCode code details
  | e => .other (toString e)

/-- Does a step on files. A path without characters leads nowhere. -/
def onFiles {α : Type} (path : Path) (step : IO α) : IO (Except FileError α) := do
  if path.text = "" then return .error .notFound
  match ← step.toBaseIO with
  | .ok a => return .ok a
  | .error e => return .error (fileErrorOf e)

instance : ReadsFiles IO where
  isPresent path := do
    if path.text = "" then return false
    let full := (← IO.currentDir) / path.text
    full.pathExists
  read path := onFiles path (IO.FS.readBinFile path.text)
  list path := onFiles path do
    let full := (← IO.currentDir) / path.text
    let members ← full.readDir
    members.toList.mapM fun member => do return (member.fileName, !(← member.path.isDir))

instance : WritesFiles IO where
  write path contents := onFiles path (IO.FS.writeBinFile path.text contents)

/-- The filter that the environment asks for. -/
def logFilter : IO LogFilter := do
  match ← IO.getEnv "RUST_LOG" with
  | some text => return LogFilter.read text
  | none => return LogFilter.standard

/-- Runs the program on arguments. -/
def runProgram (arguments : List String) : IO UInt32 := do
  let answer ← Program.invoke arguments
  match answer with
  | .error refusal => (← IO.getStderr).putStrLn refusal.message
  | .ok outcome =>
    (← IO.getStdout).putStr outcome.output
    (← IO.getStderr).putStr (outcome.diagnostics (← logFilter))
  return (Program.exitStatus answer).toUInt32

end ColumnAudit

def main (arguments : List String) : IO UInt32 := ColumnAudit.runProgram arguments
