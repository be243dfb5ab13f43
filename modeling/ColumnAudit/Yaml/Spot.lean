import ColumnAudit.Yaml.Character

/-! # Characters with their positions

A YAML text is read as a list of spots, characters that know where they stand. Line ends are made
equal on the way: carriage return and line feed together are one spot, and they, a carriage return
and a next-line character alone all become a line feed.
-/

namespace ColumnAudit.Yaml
set_option autoImplicit false

/-- A position in a text, counted from zero in characters, lines and columns. -/
structure Mark where
  index : Nat
  line : Nat
  column : Nat
deriving DecidableEq, Repr

namespace Mark

/-- The front of a text. -/
def origin : Mark := ⟨0, 0, 0⟩

/-- The position behind a character that is not a line end. -/
def next (m : Mark) : Mark := ⟨m.index + 1, m.line, m.column + 1⟩

/-- The position behind a line end of some characters. -/
def nextLine (m : Mark) (size : Nat) : Mark := ⟨m.index + size, m.line + 1, 0⟩

end Mark

/-- A character and where it stands. -/
structure Spot where
  char : Char
  mark : Mark
deriving DecidableEq, Repr

/-- The line end that a scalar holds for one in the text. -/
def normalBreak (c : Char) : Char := if c = '\r' ∨ c = '\u0085' then '\n' else c

/-- The spots of a text that starts at a position, and the position behind it. -/
def spotsFrom (m : Mark) : List Char → List Spot × Mark
  | [] => ([], m)
  | '\r' :: '\n' :: cs =>
    let (spots, stop) := spotsFrom (m.nextLine 2) cs
    (⟨'\n', m⟩ :: spots, stop)
  | c :: cs =>
    let (spots, stop) := spotsFrom (if isBreak c then m.nextLine 1 else m.next) cs
    (⟨if isBreak c then normalBreak c else c, m⟩ :: spots, stop)

/-- The character that comes next. -/
def nextChar (spots : List Spot) : Option Char := spots.head?.map Spot.char

/-- The characters of spots. -/
def charsOf (spots : List Spot) : List Char := spots.map Spot.char

/-- Whether a line of a document starts here, three times the same mark and then the end of a
word. -/
def isTripled (mark : Char) : List Spot → Bool
  | a :: b :: c :: rest =>
    a.mark.column == 0 && a.char == mark && b.char == mark && c.char == mark &&
      endsWord (nextChar rest)
  | _ => false

/-- Whether a document starts or ends here. -/
def isDocumentMark (spots : List Spot) : Bool := isTripled '-' spots || isTripled '.' spots

end ColumnAudit.Yaml
