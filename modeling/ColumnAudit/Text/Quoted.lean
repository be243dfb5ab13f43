import ColumnAudit.Text.HiddenRanges
import ColumnAudit.Text.Word

/-! # Quoted text

How messages show a text whose content is not known beforehand: between double quotes, with the
quote and the backslash escaped, and with every character that would not show by itself written as
its code point in hexadecimal.
-/

namespace ColumnAudit.Text
set_option autoImplicit false

/-- Whether a character shows, standing by itself. -/
def isVisible (c : Char) : Bool :=
  let n := c.toNat
  if n < 0x80 then 0x20 ≤ n && n < 0x7F
  else !inRanges extendingRanges n && !inRanges shapelessRanges n

/-- One character of a quoted text. -/
def quotedChar (c : Char) : List Char :=
  match c with
  | '\x00' => ['\\', '0']
  | '\t' => ['\\', 't']
  | '\r' => ['\\', 'r']
  | '\n' => ['\\', 'n']
  | '\\' => ['\\', '\\']
  | '\"' => ['\\', '\"']
  | c => if isVisible c then [c] else ['\\', 'u', '\x7b'] ++ Nat.toDigits 16 c.toNat ++ ['\x7d']

/-- The text between double quotes, escaped. -/
def quoted (s : String) : String :=
  String.ofList (['\"'] ++ s.toList.flatMap quotedChar ++ ['\"'])

example : quoted "s q\"l'\n" = "\"s q\\\"l'\\n\"" := by decide +kernel

example : quoted "é\u200b\x7f" = "\"é\\u\x7b200b\x7d\\u\x7b7f\x7d\"" := by decide +kernel

end ColumnAudit.Text
