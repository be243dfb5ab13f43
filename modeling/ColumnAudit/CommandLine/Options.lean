import ColumnAudit.CommandLine.Command

/-! # Options

The options of one command. An option has a long name behind two dashes and perhaps a letter behind
one. Its value stands behind `=`, behind the letter, or in the next argument, which must not start
with a dash; a value in the next argument is looked at when the next option comes or the arguments
end. No option may be repeated.
-/

namespace ColumnAudit.CommandLine
open Audit Files Number Source
set_option autoImplicit false

/-- The names of options. -/
inductive OptionName where
  | threshold
  | format
  | config
  | root
  | schema
  | actionsFolder
  | typesFolder
  | input
  | kind
  | output
  | force
deriving DecidableEq, Repr

/-- What kind of value an option takes. -/
inductive ValueKind where
  /-- None: it is given or not. -/
  | flag
  | path
  | format
  | kind
  | threshold
deriving DecidableEq, Repr

/-- The value of an option that is given. -/
inductive OptionValue where
  | flag
  | path (p : Path)
  | format (f : OutputFormat)
  | kind (k : ScanKind)
  | threshold (x : Binary64)
deriving DecidableEq, Repr

/-- An option of a command. -/
structure OptionSpec where
  name : OptionName
  long : String
  letter : Option Char
  takes : ValueKind
deriving DecidableEq, Repr

/-- The value of an option in text. -/
def readValue (takes : ValueKind) (text : String) : Except Refusal OptionValue :=
  match takes with
  | .flag => .ok .flag
  | .path => if text = "" then .error .invalidValue else .ok (.path ⟨text⟩)
  | .format =>
    match OutputFormat.ofName? text with
    | some f => .ok (.format f)
    | none => .error .invalidValue
  | .kind =>
    match ScanKind.ofName? text with
    | some k => .ok (.kind k)
    | none => .error .invalidValue
  | .threshold =>
    match readThreshold text with
    | .ok x => .ok (.threshold x)
    | .error fault => .error (.invalidThreshold fault)

/-- The values of the options that are given. -/
abbrev Given := List (OptionName × OptionValue)

/-- Options that have been read. -/
structure Collected where
  given : Given
  /-- The option whose value is in the next argument, with that argument once it has come. -/
  pending : Option (OptionSpec × Option String)

namespace Collected

/-- Nothing read yet. -/
def empty : Collected := ⟨[], none⟩

/-- Adds an option with its value in text. -/
def add (st : Collected) (spec : OptionSpec) (text : String) : Except Refusal Collected :=
  if (st.given.lookup spec.name).isSome then .error .repeatedOption
  else do
    let value ← readValue spec.takes text
    return { st with given := (spec.name, value) :: st.given }

/-- Looks at the value of the pending option. -/
def settle (st : Collected) : Except Refusal Collected :=
  match st.pending with
  | none => .ok st
  | some (_, none) => .error .invalidValue
  | some (spec, some text) => { st with pending := none }.add spec text

/-- Adds an option with the value that is attached to it, if one is. -/
def take (st : Collected) (spec : OptionSpec) (attached : Option String) :
    Except Refusal Collected := do
  match spec.takes, attached with
  | .flag, some _ => throw .needlessValue
  | .flag, none => (← st.settle).add spec ""
  | _, some text => (← st.settle).add spec text
  | _, none => return { (← st.settle) with pending := some (spec, none) }

/-- Asks for help. -/
def askHelp (st : Collected) : Except Refusal Collected := do
  let _ ← st.settle
  throw .help

/-- Reads an argument behind two dashes. -/
def takeLong (specs : List OptionSpec) (st : Collected) (text : List Char) :
    Except Refusal Collected :=
  let long := String.ofList (text.takeWhile (· != '='))
  let attached := match text.dropWhile (· != '=') with
    | [] => none
    | _ :: value => some (String.ofList value)
  if long = "help" then
    if attached.isSome then .error .needlessValue else st.askHelp
  else match specs.find? fun spec => spec.long == long with
    | some spec => st.take spec attached
    | none => .error .unknownArgument

/-- Reads an argument behind one dash: a letter and perhaps a value, with `=` in between or not. -/
def takeShort (specs : List OptionSpec) (st : Collected) (letter : Char) (rest : List Char) :
    Except Refusal Collected :=
  if letter = 'h' then st.askHelp
  else match specs.find? fun spec => spec.letter == some letter with
    | some spec =>
      match rest with
      | [] => st.take spec none
      | '=' :: value => st.take spec (some (String.ofList value))
      | value => st.take spec (some (String.ofList value))
    | none => .error .unknownArgument

/-- Reads an argument that is no option. -/
def takeWord (st : Collected) (word : String) : Except Refusal Collected :=
  match st.pending with
  | some (spec, none) => .ok { st with pending := some (spec, some word) }
  | _ => .error .unknownArgument

/-- Reads one argument. -/
def step (specs : List OptionSpec) (st : Collected) (argument : String) :
    Except Refusal Collected :=
  match argument.toList with
  | '-' :: '-' :: text => st.takeLong specs text
  | '-' :: letter :: rest => st.takeShort specs letter rest
  | _ => st.takeWord argument

/-- Reads all arguments. Behind two dashes alone, nothing may follow. -/
def readAll (specs : List OptionSpec) (st : Collected) : List String → Except Refusal Given
  | [] => do return (← st.settle).given
  | argument :: rest =>
    if argument = "--" then
      if rest.isEmpty then do return (← st.settle).given else .error .unknownArgument
    else do readAll specs (← st.step specs argument) rest

end Collected

/-! ## Values -/

namespace Given

/-- The path of an option. -/
def path? (given : Given) (name : OptionName) : Option Path :=
  match given.lookup name with
  | some (.path p) => some p
  | _ => none

/-- The path of an option that is required. -/
def path (given : Given) (name : OptionName) : Except Refusal Path :=
  match given.path? name with
  | some p => .ok p
  | none => .error .missingOption

/-- The form of printing, if it is given. -/
def format? (given : Given) : Option OutputFormat :=
  match given.lookup .format with
  | some (.format f) => some f
  | _ => none

/-- The kind of sources, if it is given. -/
def kind? (given : Given) : Option ScanKind :=
  match given.lookup .kind with
  | some (.kind k) => some k
  | _ => none

/-- The threshold, if it is given. -/
def threshold? (given : Given) : Option Binary64 :=
  match given.lookup .threshold with
  | some (.threshold x) => some x
  | _ => none

/-- Whether a flag is given. -/
def has (given : Given) (name : OptionName) : Bool := (given.lookup name).isSome

end Given
end ColumnAudit.CommandLine
