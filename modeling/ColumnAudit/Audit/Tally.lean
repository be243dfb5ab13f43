import ColumnAudit.Number.Decimal
import ColumnAudit.Source.ScanKind

/-! # Counts and percentages

A tally counts the names that were compared and those of them that matched. Percentages always come
from added-up counts, never from other percentages. Nothing compared counts as full agreement.
-/

namespace ColumnAudit.Audit
open Number Source
set_option autoImplicit false

/-- How many names were compared and how many of them matched. -/
structure Tally where
  total : Nat
  matched : Nat
deriving DecidableEq, Repr

namespace Tally

/-- Nothing compared. -/
def zero : Tally := ⟨0, 0⟩

/-- The counts of both. -/
def add (s t : Tally) : Tally := ⟨s.total + t.total, s.matched + t.matched⟩

/-- A number rounded to two decimal places, a tie going to the even digit. -/
def toHundredths (x : Binary64) : Binary64 :=
  ((x.mul (.ofNat 100)).roundTiesEven).div (.ofNat 100)

/-- The share of matched names in percent, with two decimal places. -/
def percentage (t : Tally) : Binary64 :=
  if t.total = 0 then .ofNat 100
  else toHundredths (((Binary64.ofNat t.matched).div (.ofNat t.total)).mul (.ofNat 100))

end Tally

/-- The tallies of each kind of sources. -/
structure Totals where
  actions : Tally
  types : Tally
deriving DecidableEq, Repr

namespace Totals

/-- Nothing counted. -/
def zero : Totals := ⟨.zero, .zero⟩

/-- Adds the tally of one source of a kind. -/
def record (t : Totals) (kind : ScanKind) (tally : Tally) : Totals :=
  match kind with
  | .actions => { t with actions := t.actions.add tally }
  | .types => { t with types := t.types.add tally }

/-- The tally of one kind. -/
def group (t : Totals) : ScanKind → Tally
  | .actions => t.actions
  | .types => t.types

/-- The tally of both kinds together. -/
def overall (t : Totals) : Tally := t.actions.add t.types

end Totals

/-- A percentage as a report shows it, with two decimal places and a percent sign. -/
def percentText (x : Binary64) : String := x.fixed 2 ++ "%"

end ColumnAudit.Audit
