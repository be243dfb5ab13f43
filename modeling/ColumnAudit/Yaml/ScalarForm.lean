import ColumnAudit.Yaml.Resolution
import ColumnAudit.Yaml.Token

/-! # How a text is written as a scalar

A text of several lines is written as a literal block, so that its lines can be read; a text that
would be read back as something else than a text is put between single quotes; any other is written
as it is. Where the characters of a text forbid a form, it is put between quotes, and between double
quotes with escapes if nothing else is possible (`formOf`).
-/

namespace ColumnAudit.Yaml
set_option autoImplicit false

/-! ## What a text looks like -/

/-- Whether a character of one class is directly followed by one of another. -/
def hasAdjacent (p q : Char → Bool) : List Char → Bool
  | a :: b :: cs => (p a && q b) || hasAdjacent p q (b :: cs)
  | _ => false

/-- Whether a character is a space. -/
def isSpace (c : Char) : Bool := c == ' '

/-- Whether a `:` ends a word or a `#` starts one, which would structure a text that is not quoted.
-/
def hasMark (wordEnded : Bool) : List Char → Bool
  | [] => false
  | c :: cs =>
    (c == ':' && endsWord cs.head?) || (c == '#' && wordEnded) || hasMark (endsWord (some c)) cs

/-- Whether a text that is not quoted would be read as structure. -/
def looksStructural (cs : List Char) : Bool :=
  ["---", "..."].any (fun mark => mark.toList.isPrefixOf cs) || hasMark true cs ||
    match cs with
    | [] => false
    | c :: rest =>
      if c == '-' || c == '?' then endsWord rest.head? else isIndicator c && c != ':'

/-- Whether a space or a line end is at the front or at the end of a text. -/
def hasBlankEdge (cs : List Char) : Bool :=
  cs.head?.any (fun c => isSpace c || isBreak c) || cs.getLast?.any fun c => isSpace c || isBreak c

/-- Whether a text can stand without quotes. -/
def allowsPlain (cs : List Char) : Bool :=
  cs.all isPrintable && !cs.any isBreak && !hasBlankEdge cs && !looksStructural cs

/-- Whether a text can stand between single quotes. -/
def allowsSingleQuotes (cs : List Char) : Bool :=
  cs.all isPrintable && !hasAdjacent isSpace isBreak cs && !hasAdjacent isBreak isSpace cs

/-- Whether a text can be a literal block. -/
def allowsLiteral (cs : List Char) : Bool :=
  cs.all isPrintable && !hasAdjacent isSpace isBreak cs && !cs.getLast?.any isSpace

/-- Whether a text without quotes is read as that text, and digits are not meant. -/
def readsAsText (s : String) : Bool :=
  resolve s == .text s && !hasNeedlessZero s.toList

/-- The form in which a text is written. -/
def formOf (s : String) : ScalarStyle :=
  let cs := s.toList
  if cs.contains '\n' then if allowsLiteral cs then .literal else .doubleQuoted
  else if readsAsText s && allowsPlain cs then .plain
  else if allowsSingleQuotes cs then .singleQuoted
  else .doubleQuoted

/-! ## Writing -/

/-- Some spaces. -/
def spaces (count : Nat) : List Char := List.replicate count ' '

/-- Digits in hexadecimal, filled up with zeros. -/
def hexDigits (width n : Nat) : List Char :=
  let digits := (Nat.toDigits 16 n).map Char.toUpper
  List.replicate (width - digits.length) '0' ++ digits

/-- The letter behind a backslash that stands for a character. -/
def escapeLetter? : Char → Option Char
  | '\x00' => some '0'
  | '\x07' => some 'a'
  | '\x08' => some 'b'
  | '\t' => some 't'
  | '\n' => some 'n'
  | '\x0b' => some 'v'
  | '\x0c' => some 'f'
  | '\r' => some 'r'
  | '\x1b' => some 'e'
  | '\"' => some '\"'
  | '\\' => some '\\'
  | '\u0085' => some 'N'
  | '\u2028' => some 'L'
  | '\u2029' => some 'P'
  | _ => none

/-- A character between double quotes. -/
def doubleQuotedChar (c : Char) : List Char :=
  match escapeLetter? c with
  | some letter => ['\\', letter]
  | none =>
    let n := c.toNat
    if isPrintable c then [c]
    else if n ≤ 0xFF then '\\' :: 'x' :: hexDigits 2 n
    else if n ≤ 0xFFFF then '\\' :: 'u' :: hexDigits 4 n
    else '\\' :: 'U' :: hexDigits 8 n

/-- The characters between single quotes, a quote being written twice. Behind a line end the next
character, or the closing quote, is indented. -/
def singleQuotedChars (margin : Nat) (broken : Bool) : List Char → List Char
  | [] => if broken then spaces margin else []
  | c :: cs =>
    if isBreak c then c :: singleQuotedChars margin true cs
    else
      (if broken then spaces margin else []) ++ (if c = '\x27' then ['\x27', '\x27'] else [c]) ++
        singleQuotedChars margin false cs

/-- The lines of a literal block. A line that is not empty is indented. -/
def literalChars (margin : Nat) (broken : Bool) : List Char → List Char
  | [] => []
  | c :: cs =>
    if isBreak c then c :: literalChars margin true cs
    else (if broken then spaces margin else []) ++ c :: literalChars margin false cs

/-- What the header of a literal block says besides its form: the indentation, if the first line does
not show it, and what becomes of the line ends behind the last line. -/
def literalHints (cs : List Char) : List Char :=
  let shown := !cs.head?.any fun c => isSpace c || isBreak c
  let chomping := match cs.reverse with
    | last :: before =>
      if !isBreak last then ['-']
      else if before.isEmpty || before.head?.any isBreak then ['+']
      else []
    | [] => ['-']
  (if shown then [] else ['2']) ++ chomping

/-- A text in a form. The lines of a literal block are indented by a margin. -/
def writtenAs (form : ScalarStyle) (margin : Nat) (cs : List Char) : List Char :=
  match form with
  | .singleQuoted => '\x27' :: singleQuotedChars margin false cs ++ ['\x27']
  | .doubleQuoted => '\"' :: cs.flatMap doubleQuotedChar ++ ['\"']
  | .literal => '|' :: literalHints cs ++ '\n' :: literalChars margin true cs
  | .plain => cs
  | .folded => cs

/-- A text, written as a scalar. -/
def written (margin : Nat) (s : String) : List Char := writtenAs (formOf s) margin s.toList

end ColumnAudit.Yaml
