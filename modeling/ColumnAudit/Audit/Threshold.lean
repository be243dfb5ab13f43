import ColumnAudit.Audit.Tally

/-! # The threshold

An audit can be asked to fail below a percentage. It falls short only when its percentage is strictly
below that threshold.
-/

namespace ColumnAudit.Audit
open Number
set_option autoImplicit false

/-- A percentage that is below the threshold asked for. -/
structure Shortfall where
  percentage : Binary64
  threshold : Binary64
deriving DecidableEq, Repr

/-- A percentage in a message: a whole number with one decimal place, any other with the fewest
digits. -/
def plainPercent (x : Binary64) : String := if x.isWhole then x.fixed 1 else x.plain

/-- What is said about a shortfall. -/
def Shortfall.message (s : Shortfall) : String :=
  "Schema alignment check failed: db_only percentage " ++ plainPercent s.percentage ++
    "% is below threshold " ++ plainPercent s.threshold ++ "%."

/-- The shortfall of a percentage against a threshold, if there is one. -/
def shortfall? (percentage : Binary64) : Option Binary64 → Option Shortfall
  | none => none
  | some threshold => if percentage.lt threshold then some ⟨percentage, threshold⟩ else none

/-- Why a text is no threshold. -/
inductive ThresholdFault where
  | notANumber (text : String)
  | outOfRange (text : String)
deriving DecidableEq, Repr

/-- What is said about a text that is no threshold. -/
def ThresholdFault.message : ThresholdFault → String
  | notANumber text => "'" ++ text ++ "' is not a number"
  | outOfRange text => "Threshold must be a non-negative percentage, got '" ++ text ++ "'"

/-- Reads a threshold: a finite number that is not below zero, with blanks allowed around it. -/
def readThreshold (text : String) : Except ThresholdFault Binary64 :=
  match Binary64.read? (String.ofList (Text.trim text.toList)) with
  | none => .error (.notANumber text)
  | some x => if !x.isFinite || x.lt .zero then .error (.outOfRange text) else .ok x

end ColumnAudit.Audit
