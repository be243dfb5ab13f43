import ColumnAudit.Number.Rounding

/-! # Double-precision numbers

Percentages and thresholds are numbers of the binary64 format. A finite one is held as its sign and
the exact count of steps of 2⁻¹⁰⁷⁴ in its magnitude, so that every operation is exact natural
arithmetic followed by one rounding: `ofRatio` takes the exact result as a quotient and gives the
nearest number of the format, a tie going to the even one.
-/

namespace ColumnAudit.Number
set_option autoImplicit false

/-- A number of the binary64 format. A finite number is `steps * 2⁻¹⁰⁷⁴`, or its negative. -/
inductive Binary64 where
  | nan
  | infinite (negative : Bool)
  | finite (negative : Bool) (steps : Nat)
deriving DecidableEq, Repr

namespace Binary64

/-- How many steps make up one. -/
def one : Nat := Nat.pow 2 1074

/-- The distance, in steps, between neighbours in the format at a magnitude of `n` steps. -/
def spacing (n : Nat) : Nat := Nat.pow 2 (n.log2 - 52)

/-- The magnitude in the format that is nearest to `num / den` steps, with no upper limit. -/
def nearest (num den : Nat) : Nat :=
  let s := spacing (num / den)
  roundDiv num (den * s) * s

/-- The number of the format nearest to the quotient `num / den` of natural numbers. From 2¹⁰²⁴ on
there is only infinity. -/
def ofRatio (negative : Bool) (num den : Nat) : Binary64 :=
  let steps := nearest (num * one) den
  if steps < Nat.pow 2 1024 * one then finite negative steps else infinite negative

/-- The number nearest to a natural number. -/
def ofNat (n : Nat) : Binary64 := ofRatio false n 1

/-! ## Arithmetic -/

/-- Product. -/
def mul : Binary64 → Binary64 → Binary64
  | nan, _ | _, nan => nan
  | infinite s, infinite t => infinite (s != t)
  | infinite s, finite t n | finite t n, infinite s => if n = 0 then nan else infinite (s != t)
  | finite s m, finite t n => ofRatio (s != t) (m * n) (one * one)

/-- Quotient. -/
def div : Binary64 → Binary64 → Binary64
  | nan, _ | _, nan => nan
  | infinite _, infinite _ => nan
  | infinite s, finite t _ => infinite (s != t)
  | finite s _, infinite t => finite (s != t) 0
  | finite s m, finite t n =>
    if n = 0 then if m = 0 then nan else infinite (s != t) else ofRatio (s != t) m n

/-- The nearest whole number, a tie going to the even one. -/
def roundTiesEven : Binary64 → Binary64
  | finite s n => finite s (roundDiv n one * one)
  | x => x

/-! ## Comparison -/

/-- The magnitude with its sign, in steps. -/
def signed (negative : Bool) (steps : Nat) : Int := if negative then -(steps : Int) else steps

/-- Whether the first number is below the second; never so when one of them is not a number. -/
def lt : Binary64 → Binary64 → Bool
  | nan, _ | _, nan => false
  | infinite s, infinite t => s && !t
  | infinite s, finite _ _ => s
  | finite _ _, infinite t => !t
  | finite s m, finite t n => signed s m < signed t n

/-- Whether a number is neither infinite nor not a number. -/
def isFinite : Binary64 → Bool
  | finite _ _ => true
  | _ => false

/-- Whether a number is finite and whole. -/
def isWhole : Binary64 → Bool
  | finite _ n => n % one == 0
  | _ => false

/-- Zero. -/
def zero : Binary64 := finite false 0

end Binary64
end ColumnAudit.Number
