import ColumnAudit.Number.Decimal
import ColumnAudit.Yaml.Character

/-! # What plain scalars are

A plain scalar is a unit, a boolean, a number or a text; its characters decide which. A whole number
has a decimal, hexadecimal, octal or binary form and fits into 128 bits. Digits with a needless zero
in front are no number.
-/

namespace ColumnAudit.Yaml
open Number
set_option autoImplicit false

/-- What a scalar is. -/
inductive Resolved where
  | unit
  | boolean (b : Bool)
  | integer (n : Int)
  | float (x : Binary64)
  | text (s : String)
deriving DecidableEq, Repr

/-- Whether a text is digits with a needless zero in front, perhaps behind a sign. -/
def hasNeedlessZero (cs : List Char) : Bool :=
  let digits := match cs with
    | '+' :: rest => rest
    | '-' :: rest => rest
    | _ => cs
  match digits with
  | '0' :: d :: rest => (d :: rest).all Char.isDigit
  | _ => false

/-- The value of digits to a base behind a value. -/
def digitsBehind (base value : Nat) : List Char → Option Nat
  | [] => some value
  | c :: cs =>
    match hexValue? c with
    | some d => if d < base then digitsBehind base (base * value + d) cs else none
    | none => none

/-- The value of one or more digits to a base. -/
def digits? (base : Nat) (cs : List Char) : Option Nat :=
  if cs.isEmpty then none else digitsBehind base 0 cs

/-- The value of a whole number without a sign: decimal digits, or digits behind the letter of their
base. -/
def magnitude? : List Char → Option Nat
  | '0' :: 'x' :: cs => digits? 16 cs
  | '0' :: 'o' :: cs => digits? 8 cs
  | '0' :: 'b' :: cs => digits? 2 cs
  | cs => if hasNeedlessZero cs then none else digits? 10 cs

/-- A value that is not too large. -/
def atMost (limit : Nat) (n : Nat) : Option Nat := if n ≤ limit then some n else none

/-- The value of a whole number. -/
def integer? : List Char → Option Int
  | '-' :: cs => ((magnitude? cs).bind (atMost (Nat.pow 2 127))).map fun n => -(n : Int)
  | '+' :: cs => ((magnitude? cs).bind (atMost (Nat.pow 2 128 - 1))).map Int.ofNat
  | cs => ((magnitude? cs).bind (atMost (Nat.pow 2 128 - 1))).map Int.ofNat

/-- The value of a number that is not whole, or infinite, or not a number at all. -/
def float? (cs : List Char) : Option Binary64 :=
  let unsigned := match cs with
    | '+' :: rest => rest
    | _ => cs
  let name := String.ofList unsigned
  if cs.head? = some '+' ∧ (unsigned.head? = some '+' ∨ unsigned.head? = some '-') then none
  else if name = ".inf" ∨ name = ".Inf" ∨ name = ".INF" then some (.infinite false)
  else if name = "-.inf" ∨ name = "-.Inf" ∨ name = "-.INF" then some (.infinite true)
  else
    let whole := String.ofList cs
    if whole = ".nan" ∨ whole = ".NaN" ∨ whole = ".NAN" then some .nan
    else match Binary64.read? name with
      | some x => if x.isFinite then some x else none
      | none => none

/-- Whether a text stands for nothing. -/
def isNull (s : String) : Bool := ["null", "Null", "NULL", "~"].contains s

/-- The boolean that a text stands for. -/
def boolean? (s : String) : Option Bool :=
  if ["true", "True", "TRUE"].contains s then some true
  else if ["false", "False", "FALSE"].contains s then some false
  else none

/-- What a plain scalar is. -/
def resolve (s : String) : Resolved :=
  if s = "" || isNull s then .unit
  else match boolean? s with
    | some b => .boolean b
    | none =>
      match integer? s.toList with
      | some n => .integer n
      | none =>
        if hasNeedlessZero s.toList then .text s
        else match float? s.toList with
          | some x => .float x
          | none => .text s

example : resolve "0x1F" = .integer 31 ∧ resolve "-0b11" = .integer (-3) ∧
    resolve "007" = .text "007" ∧ resolve "+5" = .integer 5 ∧ resolve "1_000" = .text "1_000" := by
  decide +kernel

end ColumnAudit.Yaml
