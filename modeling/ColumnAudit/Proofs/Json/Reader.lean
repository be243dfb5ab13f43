import ColumnAudit.Json
import ColumnAudit.NameMap
import ColumnAudit.Proofs.Number.Numeral

/-! # Reading JSON documents

`Value.read?` reads any JSON text: blanks between the parts, every escape that a string may have, and
numbers with or without a point and an exponent. A number without either is whole, and any other is the
nearest of the binary64 format. The order of members is kept, and what follows a document may only be
blank.

Each reader takes the characters that are left and gives what stands at their front with the characters
behind it. `fuel` bounds how deep values are nested; no text nests deeper than it is long.
-/

namespace ColumnAudit.Json
open Number Binary64
set_option autoImplicit false

/-- What a JSON text holds. -/
inductive Value where
  | null
  | truth (b : Bool)
  | whole (n : Int)
  | real (x : Binary64)
  | text (s : String)
  | array (items : List Value)
  | object (members : List (String × Value))

/-- A reader of something at the front of a text. -/
abbrev Reader (α : Type) : Type := List Char → Option (α × List Char)

/-- The characters that may stand between the parts of a document. -/
def isBlank (c : Char) : Bool := c == ' ' || c == '\t' || c == '\n' || c == '\r'

/-- A text without the blanks at its front. -/
def skip (t : List Char) : List Char := t.dropWhile isBlank

/-! ## Strings -/

/-- The value of a hexadecimal digit. -/
def hexValue (c : Char) : Option Nat :=
  if c.isDigit then some (c.toNat - '0'.toNat)
  else if 'a' ≤ c ∧ c ≤ 'f' then some (c.toNat - 'a'.toNat + 10)
  else if 'A' ≤ c ∧ c ≤ 'F' then some (c.toNat - 'A'.toNat + 10)
  else none

/-- Four hexadecimal digits. -/
def readFourHex : Reader Nat
  | a :: b :: c :: d :: t => do
    let a ← hexValue a
    let b ← hexValue b
    let c ← hexValue c
    let d ← hexValue d
    some (((a * 16 + b) * 16 + c) * 16 + d, t)
  | _ => none

/-- Whether a number is the first half of a pair that stands for one character. -/
def isHighHalf (n : Nat) : Bool := 0xD800 ≤ n && n < 0xDC00

/-- Whether a number is the second half of a pair that stands for one character. -/
def isLowHalf (n : Nat) : Bool := 0xDC00 ≤ n && n < 0xE000

/-- The character with a number in hexadecimal digits, or with two of them that are halves of a pair. -/
def readNumbered (t : List Char) : Option (Char × List Char) := do
  let (n, t) ← readFourHex t
  if isLowHalf n then none
  else if isHighHalf n then
    match t with
    | '\\' :: 'u' :: t => do
      let (k, t) ← readFourHex t
      if isLowHalf k then some (Char.ofNat (0x10000 + (n - 0xD800) * 0x400 + (k - 0xDC00)), t) else none
    | _ => none
  else some (Char.ofNat n, t)

/-- The character that one letter behind a backslash stands for. -/
def unescaped : Char → Option Char
  | '\"' => some '\"'
  | '\\' => some '\\'
  | '/' => some '/'
  | 'b' => some '\x08'
  | 'f' => some '\x0c'
  | 'n' => some '\n'
  | 'r' => some '\r'
  | 't' => some '\t'
  | _ => none

/-- One character of a string. -/
def readCharacter : Reader Char
  | '\\' :: 'u' :: t => readNumbered t
  | '\\' :: c :: t => (unescaped c).map (·, t)
  | c :: t => if c = '\"' ∨ c = '\\' ∨ c.toNat < 0x20 then none else some (c, t)
  | [] => none

/-- The characters of a string up to its closing quote, at most as many as there is fuel. -/
def readCharacters : Nat → Reader (List Char)
  | 0, _ => none
  | fuel + 1, t =>
    if t.head? = some '\"' then some ([], t.tail)
    else do
      let (c, t) ← readCharacter t
      let (cs, t) ← readCharacters fuel t
      some (c :: cs, t)

/-- A string with its quotes. -/
def readString : Reader String
  | '\"' :: t => (readCharacters t.length t).map fun (cs, t) => (String.ofList cs, t)
  | _ => none

/-! ## Numbers -/

/-- Digits, at least one. -/
def readDigits (t : List Char) : Option (List Char × List Char) :=
  let (ds, t) := t.span Char.isDigit
  if ds = [] then none else some (ds, t)

/-- Digits behind a point, if there is a point. -/
def readPlaces : Reader (List Char)
  | '.' :: t => readDigits t
  | t => some ([], t)

/-- The sign and the digits of an exponent, if there is one. -/
def readPower : Reader (Option (Bool × List Char))
  | [] => some (none, [])
  | c :: t =>
    if c = 'e' ∨ c = 'E' then
      let (negative, t) := readSign t
      (readDigits t).map fun (ds, t) => (some (negative, ds), t)
    else some (none, c :: t)

/-- A numeral; no digit stands behind a leading zero. -/
def readNumeral (t : List Char) : Option (Numeral × List Char) := do
  let (whole, t) ← readDigits t
  if whole.head? = some '0' ∧ whole ≠ ['0'] then none
  let (places, t) ← readPlaces t
  let (exponent, t) ← readPower t
  some (⟨whole, places, exponent⟩, t)

/-- The number that a numeral and its sign stand for. -/
def numberValue (negative : Bool) (n : Numeral) : Value :=
  if n.IsWhole then .whole (signed negative (digitsValue n.whole))
  else .real (ofDecimal negative n.decimal)

/-- A number without its sign. -/
def readNumber (negative : Bool) (t : List Char) : Option (Value × List Char) :=
  (readNumeral t).map fun (n, t) => (numberValue negative n, t)

/-! ## Values -/

/-- A name that stands for a value. -/
def readWord : Reader Value
  | 'n' :: 'u' :: 'l' :: 'l' :: t => some (.null, t)
  | 't' :: 'r' :: 'u' :: 'e' :: t => some (.truth true, t)
  | 'f' :: 'a' :: 'l' :: 's' :: 'e' :: t => some (.truth false, t)
  | _ => none

section Members
variable {α : Type}

/-- Members with commas between them up to a closing bracket, at most as many as there is fuel. -/
def readSequence (closing : Char) (readMember : Reader α) : Nat → Reader (List α)
  | 0, _ => none
  | fuel + 1, t => do
    let (member, t) ← readMember t
    match skip t with
    | [] => none
    | c :: t =>
      if c = ',' then do
        let (members, t) ← readSequence closing readMember fuel (skip t)
        some (member :: members, t)
      else if c = closing then some ([member], t)
      else none

/-- What stands behind an opening bracket: the closing one, or members and the closing one. -/
def readBracketed (closing : Char) (readMember : Reader α) (t : List Char) :
    Option (List α × List Char) :=
  if (skip t).head? = some closing then some ([], (skip t).tail)
  else readSequence closing readMember t.length (skip t)

/-- A member of an object: a string, a colon and a value. -/
def readPair (readMember : Reader α) (t : List Char) : Option ((String × α) × List Char) := do
  let (key, t) ← readString t
  match skip t with
  | ':' :: t => do
    let (member, t) ← readMember (skip t)
    some ((key, member), t)
  | _ => none

end Members

/-- A value that is nested less deep than there is fuel. -/
def readValue : Nat → Reader Value
  | 0, _ => none
  | _, [] => none
  | fuel + 1, c :: t =>
    if c = '\x7b' then
      (readBracketed '\x7d' (readPair (readValue fuel)) t).map fun (ms, t) => (.object ms, t)
    else if c = '[' then (readBracketed ']' (readValue fuel) t).map fun (vs, t) => (.array vs, t)
    else if c = '\"' then (readString (c :: t)).map fun (s, t) => (.text s, t)
    else if c = '-' then readNumber true t
    else if c.isDigit then readNumber false (c :: t)
    else readWord (c :: t)

/-- What a JSON text holds, if it is one. -/
def Value.read? (s : String) : Option Value := do
  let (v, t) ← readValue (s.length + 1) (skip s.toList)
  if skip t = [] then some v else none

/-! ## Parts of values -/

namespace Value

/-- The member of an object with a name. -/
def member? (name : String) : Value → Option Value
  | object members => members.lookup name
  | _ => none

/-- A whole number that is not negative. -/
def count? : Value → Option Nat
  | whole n => n.toNat?
  | _ => none

/-- A number with a point or an exponent. -/
def real? : Value → Option Binary64
  | real x => some x
  | _ => none

/-- A string. -/
def text? : Value → Option String
  | text s => some s
  | _ => none

/-- The set of the strings in an array. -/
def names? : Value → Option NameSet
  | array items => (items.mapM text?).map NameSet.ofList
  | _ => none

/-- The map of the members of an object, each read by itself. -/
def entries? {α : Type} (read : Value → Option α) : Value → Option (NameMap α)
  | object members => (members.mapM fun m => (read m.2).map (m.1, ·)).map NameMap.ofList
  | _ => none

end Value

/-- An escaped letter, an escaped pair of halves and an escaped slash. -/
example : (Value.read? "[ \"\\u00e9\\ud83d\\ude00\\/\" ]\n").bind Value.names? =
    some (NameSet.ofList ["é😀/"]) := by decide +kernel

end ColumnAudit.Json
