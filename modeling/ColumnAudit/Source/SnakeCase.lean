import ColumnAudit.Text.Blank
import ColumnAudit.Text.Pattern

/-! # Names in snake case

A snake-case name has two or more segments joined by single underscores. The first segment is made
of lower-case letters, the others of lower-case letters and digits. Such a name counts in a text
only where it is a whole word, and as a key only where a colon follows it.
-/

namespace ColumnAudit.Source
open Text
set_option autoImplicit false

/-- ASCII lower-case letters and digits. -/
def isSegmentChar (c : Char) : Bool := c.isLower || c.isDigit

/-- Whether a word has the shape of a snake-case name. -/
def isSnakeCase (word : List Char) : Bool :=
  match pieces '_' word with
  | [] | [_] => false
  | first :: others =>
    !first.isEmpty && first.all Char.isLower &&
      others.all fun s => !s.isEmpty && s.all isSegmentChar

example : isSnakeCase "a_1b_c".toList := by decide +kernel
example : ¬ isSnakeCase "user".toList ∧ ¬ isSnakeCase "a__b".toList := by decide +kernel
example : ¬ isSnakeCase "_a_b".toList ∧ ¬ isSnakeCase "a1_b".toList := by decide +kernel

/-- Snake-case names as a pattern. -/
def snakePattern : Pattern :=
  .seq (.many (.one Char.isLower))
    (.many (.seq (.one fun c => c == '_') (.many (.one isSegmentChar))))

/-- The snake-case names of a text that stand between word boundaries, in order. -/
def snakeNames (t : List Char) : List String := (snakePattern.wholeWord.found t).map String.ofList

example : snakeNames "a_b, x.c_1 d_e_f _g_h é_i".toList = ["a_b", "c_1", "d_e_f"] := by
  decide +kernel

/-- A snake-case name with a colon behind it, as a pattern; the name is its group. Blanks may stand between
them. -/
def snakeKeyPattern : Grouped :=
  .lead .boundary (.trail (.group snakePattern) (.seq (.star (.one isBlank)) (.literal [':'])))

/-- The snake-case names of a text that a colon follows, in order. -/
def snakeKeys (t : List Char) : List String := (snakeKeyPattern.captured t).map String.ofList

example : snakeKeys "a_b : x, y.c_1: d_e_f _g_h: é_i:".toList = ["a_b", "c_1"] := by decide +kernel

end ColumnAudit.Source
