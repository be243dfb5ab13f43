import ColumnAudit.Number.Binary64

/-! # Decimal text of numbers

A finite number is written in one of two ways: with a fixed number of decimal places, rounded from
its exact value, or with the fewest digits that no other number of the format is nearer to.

* `Decimal` is a whole number of units of a power of ten.
* `Binary64.shortest` picks the decimal of fewest digits that reads back as the number, and of those
  the nearest to it.
* `Binary64.fixed`, `Binary64.plain`, `Binary64.whole` and `Binary64.scientific` are the written
  forms; `Binary64.read?` reads a number.
-/

namespace ColumnAudit.Number
set_option autoImplicit false

/-- The value `digits * 10 ^ exponent`. -/
structure Decimal where
  digits : Nat
  exponent : Int
deriving DecidableEq, Repr

/-! ## Positional text -/

/-- The decimal digits of a natural number. -/
def digitsOf (n : Nat) : List Char := Nat.toDigits 10 n

/-- `count` zeros. -/
def zeros (count : Nat) : List Char := List.replicate count '0'

/-- Digits with a point in front of the last `places` of them, and at least one digit before it. -/
def pointed (digits : List Char) (places : Nat) : List Char :=
  if places = 0 then digits
  else
    let padded := zeros (places + 1 - digits.length) ++ digits
    padded.take (padded.length - places) ++ ['.'] ++ padded.drop (padded.length - places)

/-- A decimal written without an exponent. -/
def Decimal.positional (d : Decimal) : List Char :=
  if 0 ≤ d.exponent then digitsOf d.digits ++ (if d.digits = 0 then [] else zeros d.exponent.toNat)
  else pointed (digitsOf d.digits) (-d.exponent).toNat

example : String.ofList (Decimal.positional ⟨625, -1⟩) = "62.5" := by decide +kernel
example : String.ofList (Decimal.positional ⟨5, -3⟩) = "0.005" := by decide +kernel
example : String.ofList (Decimal.positional ⟨5, 3⟩) = "5000" := by decide +kernel

namespace Binary64

/-! ## The fewest digits -/

/-- The quotient `num / den` in units of `10 ^ exponent`, as a quotient. -/
def inUnits (num den : Nat) (exponent : Int) : Nat × Nat :=
  if 0 ≤ exponent then (num, den * Nat.pow 10 exponent.toNat)
  else (num * Nat.pow 10 (-exponent).toNat, den)

/-- The exponent of the leading decimal digit of a positive quotient. -/
def leadingExponent (num den : Nat) : Int :=
  if den ≤ num then (digitsOf (num / den)).length - 1
  else
    let inverse := (den + num - 1) / num
    Int.neg (digitsOf (inverse - 1)).length

/-- The decimals that read back as a magnitude of `steps` lie between these bounds, in quarters of
a step; the bounds themselves belong to them if the flag is set. -/
def readBackBounds (steps : Nat) : Nat × Nat × Bool :=
  let s := spacing steps
  let below := if steps = Nat.pow 2 52 * s ∧ 1 < s then s else 2 * s
  (4 * steps - below, 4 * steps + 2 * s, steps / s % 2 == 0)

/-- Whether `n` units of `10 ^ exponent` read back as a magnitude of `steps`. -/
def readsBack (steps n : Nat) (exponent : Int) : Bool :=
  let (lo, hi, closed) := readBackBounds steps
  let quarter := 4 * one
  let (num, den) :=
    if 0 ≤ exponent then (n * Nat.pow 10 exponent.toNat, 1)
    else (n, Nat.pow 10 (-exponent).toNat)
  let scaled := num * quarter
  if closed then lo * den ≤ scaled && scaled ≤ hi * den else lo * den < scaled && scaled < hi * den

/-- The nearest decimal with `count` digits that reads back as a magnitude of `steps`. -/
def nearestDecimal (steps count : Nat) : Option Decimal :=
  let exponent := leadingExponent steps one + 1 - count
  let (num, den) := inUnits steps one exponent
  let low := num / den
  let near := roundDiv num den
  let far := if near = low then low + 1 else low
  if readsBack steps near exponent then some ⟨near, exponent⟩
  else if readsBack steps far exponent then some ⟨far, exponent⟩
  else none

/-- The decimal of fewest digits that reads back as a positive magnitude of `steps`. Seventeen digits
are enough for every number. -/
def shortestOf (steps : Nat) : Decimal :=
  (((List.range 17).map (· + 1)).findSome? (nearestDecimal steps)).getD ⟨steps, 0⟩

/-- A decimal without the zeros at its end. -/
def stripZeros : Nat → Decimal → Decimal
  | 0, d => d
  | fuel + 1, d =>
    if d.digits % 10 = 0 ∧ d.digits ≠ 0 then stripZeros fuel ⟨d.digits / 10, d.exponent + 1⟩ else d

/-- The decimal of fewest digits that reads back as a magnitude of `steps`. -/
def shortest (steps : Nat) : Decimal :=
  if steps = 0 then ⟨0, 0⟩ else stripZeros 17 (shortestOf steps)

/-! ## Written forms -/

/-- A sign in front of the text of a magnitude, and the names of the numbers that are not finite. -/
def withSign (magnitude : Nat → List Char) : Binary64 → String
  | nan => "NaN"
  | infinite negative => if negative then "-inf" else "inf"
  | finite negative steps => String.ofList ((if negative then ['-'] else []) ++ magnitude steps)

/-- With a fixed number of decimal places, a tie going to the even last digit. -/
def fixed (places : Nat) : Binary64 → String :=
  withSign fun steps => pointed (digitsOf (roundDiv (steps * Nat.pow 10 places) one)) places

/-- With the fewest digits and no exponent; a whole number has no point. -/
def plain : Binary64 → String := withSign fun steps => (shortest steps).positional

/-- With the fewest digits and no exponent; a whole number that is finite ends in `.0`. -/
def pointedPlain (x : Binary64) : String :=
  if x.isWhole then x.plain ++ ".0" else x.plain

/-- A magnitude with the fewest digits, and an exponent from 10¹⁶ on and below 10⁻⁵. -/
def scientificOf (steps : Nat) : List Char :=
  let d := shortest steps
  let digits := digitsOf d.digits
  let point : Int := digits.length + d.exponent
  if -5 < point ∧ point ≤ 16 then
    d.positional ++ (if 0 ≤ d.exponent then ".0".toList else [])
  else
    let power := point - 1
    pointed digits (digits.length - 1) ++ ['e'] ++ (if power < 0 then ['-'] else ['+']) ++
      digitsOf power.natAbs

/-- With the fewest digits; very large and very small numbers have an exponent, and the others a
point. -/
def scientific : Binary64 → String := withSign scientificOf

/-! ## Reading -/

/-- The value of a list of decimal digits. -/
def digitsValue (ds : List Char) : Nat := ds.foldl (fun n c => 10 * n + (c.toNat - '0'.toNat)) 0

/-- The number nearest to `digits * 10 ^ exponent`. A magnitude far outside the format is not
computed: beyond 10³¹⁰ it is infinite and below 10⁻⁴⁰⁰ it is zero. -/
def ofDecimal (negative : Bool) (d : Decimal) : Binary64 :=
  let size : Int := (digitsOf d.digits).length + d.exponent
  if d.digits = 0 ∨ size < -400 then finite negative 0
  else if 310 < size then infinite negative
  else if 0 ≤ d.exponent then ofRatio negative (d.digits * Nat.pow 10 d.exponent.toNat) 1
  else ofRatio negative d.digits (Nat.pow 10 (-d.exponent).toNat)

/-- The sign at the front of a text, and the text behind it. -/
def readSign : List Char → Bool × List Char
  | '-' :: t => (true, t)
  | '+' :: t => (false, t)
  | t => (false, t)

/-- An exponent: nothing, or `e` and a whole number. -/
def readExponent : List Char → Option Int
  | [] => some 0
  | c :: t =>
    if c = 'e' ∨ c = 'E' then
      let (negative, ds) := readSign t
      if !ds.isEmpty && ds.all Char.isDigit then some (signed negative (digitsValue ds)) else none
    else none

/-- Digits with at most one point among them, and possibly an exponent. -/
def readDecimal? (t : List Char) : Option Decimal :=
  let (whole, t1) := t.span Char.isDigit
  let (places, t2) := match t1 with
    | '.' :: t2 => t2.span Char.isDigit
    | _ => ([], t1)
  if whole.isEmpty && places.isEmpty then none
  else (readExponent t2).map fun e => ⟨digitsValue (whole ++ places), e - places.length⟩

/-- Reads a number: a sign or none, then digits with a point and an exponent or without, or `inf`,
`infinity` or `nan` in letters of either case. -/
def read? (s : String) : Option Binary64 :=
  let (negative, t) := readSign s.toList
  let word := String.ofList (t.map Char.toLower)
  if word = "inf" ∨ word = "infinity" then some (infinite negative)
  else if word = "nan" then some nan
  else (readDecimal? t).map (ofDecimal negative)

end Binary64
end ColumnAudit.Number
