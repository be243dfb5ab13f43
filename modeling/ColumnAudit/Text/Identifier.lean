import ColumnAudit.Text.Blank

/-! # Identifiers

An identifier starts with an ASCII letter or `_` and goes on with ASCII letters, digits and `_`. A
folded identifier may also hold the two characters beyond ASCII that turn into ASCII letters when
case is ignored, the long s (U+017F) and the Kelvin sign (U+212A).
-/

namespace ColumnAudit.Text
set_option autoImplicit false

/-- Characters that start an identifier. -/
def isNameStart (c : Char) : Bool := c.isAlpha || c == '_'

/-- Characters that go on an identifier. -/
def isNamePart (c : Char) : Bool := c.isAlphanum || c == '_'

/-- Characters that are ASCII letters only when case is ignored. -/
def foldsToLetter (c : Char) : Bool := c == '\u017f' || c == '\u212a'

/-- Characters that start an identifier when case is ignored. -/
def isFoldedStart (c : Char) : Bool := isNameStart c || foldsToLetter c

/-- Characters that go on an identifier when case is ignored. -/
def isFoldedPart (c : Char) : Bool := isNamePart c || foldsToLetter c

/-- The longest stretch of `part` characters at the front and the text behind it, if the text
starts with a `start` character. -/
def leading (start part : Char → Bool) : List Char → Option (List Char × List Char)
  | [] => none
  | c :: cs => if start c then some (c :: cs.takeWhile part, cs.dropWhile part) else none

theorem leading_append {start part : Char → Bool} {t name rest : List Char}
    (h : leading start part t = some (name, rest)) : name ++ rest = t := by
  cases t with
  | nil => simp [leading] at h
  | cons c cs =>
    simp only [leading] at h
    split at h
    · simp only [Option.some.injEq, Prod.mk.injEq] at h
      rw [← h.1, ← h.2, List.cons_append, List.takeWhile_append_dropWhile]
    · simp at h

/-- The identifier at the front of a text and the text behind it. -/
def leadingName (t : List Char) : Option (List Char × List Char) := leading isNameStart isNamePart t

/-- The text behind its leading blanks. -/
def skipBlanks (t : List Char) : List Char := trimStart t

/-- The text behind its leading blanks, of which there is at least one. -/
def skipSomeBlanks : List Char → Option (List Char)
  | [] => none
  | c :: cs => if isBlank c then some (skipBlanks cs) else none

end ColumnAudit.Text
