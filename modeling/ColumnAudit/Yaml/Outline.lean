import ColumnAudit.Yaml.ScalarForm

/-! # Outlines

An outline is what a program writes as a YAML text: texts, sequences and mappings with texts as keys.
It is laid out by lines, with two columns of indentation for each level of mappings. A sequence
stands under its key without further indentation.
-/

namespace ColumnAudit.Yaml
set_option autoImplicit false

/-- What is written. -/
inductive Outline where
  | text (s : String)
  | sequence (items : List Outline)
  | mapping (pairs : List (String × Outline))

namespace Outline

/-- A line end, unless one has just been written. -/
def ended (cs : List Char) : List Char := if cs.getLast?.any isBreak then cs else cs ++ ['\n']

/-- Whether a key fits on the line of its value: it has one line and at most 128 bytes. -/
def isSimpleKey (key : String) : Bool := !key.toList.any isBreak && key.utf8ByteSize ≤ 128

/-- Whether a value starts on the line of its key, its dash or its colon. -/
inductive Placement where
  /-- It starts on a line of its own. -/
  | below
  /-- It starts on the same line, as its first line. -/
  | beside
deriving DecidableEq, Repr

/-- The lines of a collection at an indentation. The first one is indented where it starts a line. -/
def laidOut (place : Placement) (indent : Nat) (items : List (List Char)) : List Char :=
  match place, items with
  | .beside, first :: rest => ' ' :: first ++ rest.flatMap (spaces indent ++ ·)
  | _, items => '\n' :: items.flatMap (spaces indent ++ ·)

mutual

/-- What follows a key, a dash or a colon that stands in a collection at an indentation. -/
def behind (place : Placement) (indent : Nat) : Outline → List Char
  | text s => ended (' ' :: written (indent + 2) s)
  | sequence [] => " []\n".toList
  | sequence items =>
    let inner := if place = .below then indent else indent + 2
    laidOut place inner (sequenceLines inner items)
  | mapping [] => " \x7b\x7d\n".toList
  | mapping pairs => laidOut place (indent + 2) (mappingLines (indent + 2) pairs)

/-- The items of a sequence, each with its dash. -/
def sequenceLines (indent : Nat) : List Outline → List (List Char)
  | [] => []
  | item :: items => ('-' :: behind .beside indent item) :: sequenceLines indent items

/-- The pairs of a mapping. A key that does not fit on the line of its value has a question mark. -/
def mappingLines (indent : Nat) : List (String × Outline) → List (List Char)
  | [] => []
  | (key, value) :: pairs =>
    let line :=
      if isSimpleKey key then written (indent + 2) key ++ ':' :: behind .below indent value
      else
        '?' :: ended (' ' :: written (indent + 2) key) ++ spaces indent ++
          ':' :: behind .beside indent value
    line :: mappingLines indent pairs

end

/-- The text of a mapping. -/
def document (pairs : List (String × Outline)) : String :=
  String.ofList (mappingLines 0 pairs).flatten

end Outline
end ColumnAudit.Yaml
