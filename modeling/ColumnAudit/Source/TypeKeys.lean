import ColumnAudit.NameSet
import ColumnAudit.Text.Identifier
import ColumnAudit.Text.Pattern

/-! # Keys of type declarations

A type key is an identifier at the start of a line with a colon behind it. Blanks may stand before
the identifier and on both sides of the colon, line ends included; the search for the next key
starts behind them, so a line whose indentation went with the key before it has no key of its own.
-/

namespace ColumnAudit.Source
open Text
set_option autoImplicit false

/-- A type key with its colon as a pattern; the key is the group. -/
def typeKeyPattern : Grouped :=
  .lead (.seq .lineStart (.star (.one isBlank)))
    (.trail (.group (.headed isNameStart isNamePart))
      (.seq (.star (.one isBlank)) (.seq (.literal [':']) (.star (.one isBlank)))))

/-- The type keys of a text. -/
def typeKeys (text : String) : NameSet :=
  NameSet.ofList ((typeKeyPattern.captured text.toList).map String.ofList)

example : (typeKeys "a:\nb:\n  c: x").toList = ["a", "b"] := by decide +kernel
example : (typeKeys "a: x\n  c: y").toList = ["a", "c"] := by decide +kernel

end ColumnAudit.Source
