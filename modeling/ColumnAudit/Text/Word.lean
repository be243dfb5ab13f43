import ColumnAudit.Text.WordRanges

/-! # Words

A word is a longest stretch of word characters: letters, marks, decimal digits, connecting
punctuation and joining controls of any script. `words` lists the words of a text together with what
follows each of them.
-/

namespace ColumnAudit.Text
set_option autoImplicit false

/-- Whether a code point lies in one of the ranges. -/
def inRanges (ranges : List (Nat × Nat)) (n : Nat) : Bool :=
  ranges.any fun (lo, hi) => lo ≤ n && n ≤ hi

/-- Word characters: ASCII letters, digits and `_`, and their kin in other scripts. -/
def isWord (c : Char) : Bool :=
  if c.toNat < 0x80 then c.isAlphanum || c == '_' else inRanges wideWordRanges c.toNat

example : isWord 'é' ∧ isWord '日' ∧ isWord '\u0301' ∧ isWord '\u200d' ∧ isWord '٣' ∧ isWord 'Ⅷ' := by
  decide +kernel

example : ¬ isWord '-' ∧ ¬ isWord '½' ∧ ¬ isWord '😀' ∧ ¬ isWord '\u00ad' ∧ ¬ isWord '。' := by
  decide +kernel

/-- The words of a text, each with the text behind it; `inside` says that the text starts in the
middle of a word, whose rest is not listed. -/
def wordsFrom (inside : Bool) : List Char → List (List Char × List Char)
  | [] => []
  | c :: cs =>
    if isWord c then
      if inside then wordsFrom true cs else (c :: cs).span isWord :: wordsFrom true cs
    else wordsFrom false cs

/-- The words of a text in order, each with the text behind it. -/
def words (t : List Char) : List (List Char × List Char) := wordsFrom false t

end ColumnAudit.Text
