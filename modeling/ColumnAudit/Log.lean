import ColumnAudit.Text.Blank

/-! # Log records

A run says what it does in log records. Each has a level and the part of the program it comes from;
a filter decides which of them are shown.
-/

namespace ColumnAudit
set_option autoImplicit false

/-- How much a record matters. -/
inductive LogLevel where
  | error
  | warn
  | info
  | debug
  | trace
deriving DecidableEq, Repr

namespace LogLevel

/-- The rank of a level; a filter that shows a level shows all lower ranks. -/
def rank : LogLevel → Nat
  | error => 1
  | warn => 2
  | info => 3
  | debug => 4
  | trace => 5

/-- The name of a level, filled up to five characters. -/
def label : LogLevel → String
  | error => "ERROR"
  | warn => "WARN "
  | info => "INFO "
  | debug => "DEBUG"
  | trace => "TRACE"

end LogLevel

/-- The parts of the program that write records. -/
inductive LogOrigin where
  | program
  | audit
  | config
deriving DecidableEq, Repr

/-- The name of a part in a record. -/
def LogOrigin.name : LogOrigin → String
  | program => "schema_audit"
  | audit => "schema_audit::audit"
  | config => "schema_audit::config"

/-- One record. -/
structure LogRecord where
  level : LogLevel
  origin : LogOrigin
  text : String
deriving DecidableEq, Repr

/-- The line of a record. -/
def LogRecord.line (r : LogRecord) : String :=
  "[" ++ r.level.label ++ " " ++ r.origin.name ++ "] " ++ r.text ++ "\n"

/-! ## Filters -/

/-- Shows the records of all origins whose name starts with `origin`, up to a rank. -/
structure LogRule where
  origin : String
  rank : Nat
deriving DecidableEq, Repr

/-- A list of rules. For a record the rule with the longest matching name decides. -/
structure LogFilter where
  rules : List LogRule
deriving DecidableEq, Repr

namespace LogFilter

/-- The filter in force when none is asked for: everything up to `info`. -/
def standard : LogFilter := ⟨[⟨LogOrigin.program.name, LogLevel.info.rank⟩]⟩

/-- The rank of a level by its name in letters of either case; `off` shows nothing. -/
def rankNamed? (name : String) : Option Nat :=
  [("off", 0), ("error", 1), ("warn", 2), ("info", 3), ("debug", 4), ("trace", 5)].lookup
    (String.ofList (name.toList.map Char.toLower))

/-- A rule in text: a level, an origin, or an origin and a level with `=` in between. -/
def readRule? (t : List Char) : Option LogRule :=
  match (Text.pieces '=' t).map fun part => String.ofList (Text.trim part) with
  | [""] => none
  | [word] =>
    match rankNamed? word with
    | some rank => some ⟨"", rank⟩
    | none => some ⟨word, LogLevel.trace.rank⟩
  | [origin, ""] => some ⟨origin, LogLevel.trace.rank⟩
  | [origin, level] => (rankNamed? level).map fun rank => ⟨origin, rank⟩
  | _ => none

/-- A filter in text: rules with commas in between. Without any rule only errors are shown. -/
def read (s : String) : LogFilter :=
  match (Text.pieces ',' s.toList).filterMap readRule? with
  | [] => ⟨[⟨"", LogLevel.error.rank⟩]⟩
  | rules => ⟨rules⟩

/-- Whether a record is shown. -/
def shows (f : LogFilter) (r : LogRecord) : Bool :=
  let applies := f.rules.filter fun rule => rule.origin.toList.isPrefixOf r.origin.name.toList
  let deciding := applies.foldl (fun best rule =>
    match best with
    | none => some rule
    | some b => if b.origin.length ≤ rule.origin.length then some rule else some b) none
  deciding.any fun rule => r.level.rank ≤ rule.rank

end LogFilter
end ColumnAudit
