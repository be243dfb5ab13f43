/-! # Looking for patterns from left to right

A pattern is a function that says whether it matches at the front of a text, and if so what it
finds and how many characters it takes up. `occurrences` collects what a pattern finds, from left
to right: after a match the search goes on behind it, so no two matches overlap, and otherwise it
goes on one character later.
-/

namespace ColumnAudit.Text
set_option autoImplicit false

/-- What `p` finds in a text whose first `skip` characters belong to the match before. -/
def occurrencesFrom {α : Type} (p : List Char → Option (α × Nat)) : Nat → List Char → List α
  | _, [] => []
  | skip + 1, _ :: cs => occurrencesFrom p skip cs
  | 0, c :: cs =>
    match p (c :: cs) with
    | some (a, size) => a :: occurrencesFrom p (size - 1) cs
    | none => occurrencesFrom p 0 cs

/-- Everything `p` finds, from left to right, without overlap. -/
def occurrences {α : Type} (p : List Char → Option (α × Nat)) (t : List Char) : List α :=
  occurrencesFrom p 0 t

/-- The text split around the first occurrence of `mark`. -/
def breakOn (mark : List Char) : List Char → Option (List Char × List Char)
  | [] => if mark = [] then some ([], []) else none
  | c :: cs =>
    match List.isPrefixOf? mark (c :: cs) with
    | some rest => some ([], rest)
    | none => (breakOn mark cs).map fun (before, after) => (c :: before, after)

/-- The text behind `mark`, if the text starts with it. -/
def behind (mark : String) (t : List Char) : Option (List Char) := List.isPrefixOf? mark.toList t

end ColumnAudit.Text
