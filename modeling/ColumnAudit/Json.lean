import ColumnAudit.Number.Decimal

/-! # JSON documents

A JSON document as a value, and its indented text: two spaces for each level, one member on each
line, and nothing between the brackets of an empty array or object.
-/

namespace ColumnAudit
open Number
set_option autoImplicit false

/-- A JSON document without truth values and nulls. -/
inductive Json where
  | count (n : Nat)
  | number (x : Binary64)
  | text (s : String)
  | array (items : List Json)
  | object (members : List (String × Json))

namespace Json

/-- A hexadecimal number of at least four digits. -/
def fourHex (n : Nat) : List Char :=
  let digits := Nat.toDigits 16 n
  List.replicate (4 - digits.length) '0' ++ digits

/-- One character of a JSON string. -/
def escaped (c : Char) : List Char :=
  match c with
  | '\"' => ['\\', '\"']
  | '\\' => ['\\', '\\']
  | '\n' => ['\\', 'n']
  | '\r' => ['\\', 'r']
  | '\t' => ['\\', 't']
  | '\x08' => ['\\', 'b']
  | '\x0c' => ['\\', 'f']
  | c => if c.toNat < 0x20 then ['\\', 'u'] ++ fourHex c.toNat else [c]

/-- A JSON string. -/
def quoted (s : String) : String :=
  String.ofList (['\"'] ++ s.toList.flatMap escaped ++ ['\"'])

/-- A new line at a depth. -/
def newLine (depth : Nat) : String := "\n" ++ "".pushn ' ' (2 * depth)

/-- A bracketed list of members, one on each line. -/
def bracketed (opening closing : String) (depth : Nat) : List String → String
  | [] => opening ++ closing
  | members =>
    opening ++ ",".intercalate (members.map (newLine (depth + 1) ++ ·)) ++ newLine depth ++ closing

mutual

/-- The indented text of a document that starts at a depth. -/
def renderAt (depth : Nat) : Json → String
  | count n => toString n
  | number x => x.scientific
  | text s => quoted s
  | array items => bracketed "[" "]" depth (renderItems (depth + 1) items)
  | object members => bracketed "\x7b" "\x7d" depth (renderMembers (depth + 1) members)

/-- The texts of the items of an array. -/
def renderItems (depth : Nat) : List Json → List String
  | [] => []
  | item :: items => renderAt depth item :: renderItems depth items

/-- The texts of the members of an object. -/
def renderMembers (depth : Nat) : List (String × Json) → List String
  | [] => []
  | (key, value) :: members =>
    (quoted key ++ ": " ++ renderAt depth value) :: renderMembers depth members

end

/-- The indented text of a document. -/
def render (document : Json) : String := renderAt 0 document

end Json
end ColumnAudit
