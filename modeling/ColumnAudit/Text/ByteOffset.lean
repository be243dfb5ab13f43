/-! # Byte offsets

A text is kept as bytes, one to four for a character, and a place in it can be given by the number of
bytes in front of it. A number is no such place if it lies behind the end or inside a character.

* `slice` cuts a text between two offsets, and fails where they are none to cut at.
* `charOffsets` lists the characters of a text with their offsets.
* `oneLess` and `oneMore` count down and up. They fail below zero and above the size of the text that is
  read: a counter is sure to hold that size, and nothing is known of larger numbers.
-/

namespace ColumnAudit.Text
set_option autoImplicit false

/-- Why a text is not cut, or why a counter does not go on. -/
inductive OffsetFault where
  | behindEnd
  | disordered
  | insideCharacter
  | belowZero
  | aboveSize
deriving DecidableEq, Repr

/-- The text between two byte offsets. -/
def slice (t : String) (start stop : Nat) : Except OffsetFault String :=
  if t.utf8ByteSize < start ∨ t.utf8ByteSize < stop then .error .behindEnd
  else if stop < start then .error .disordered
  else if h : String.Pos.Raw.IsValid t ⟨start⟩ ∧ String.Pos.Raw.IsValid t ⟨stop⟩ then
    .ok (String.extract (⟨⟨start⟩, h.1⟩ : t.Pos) ⟨⟨stop⟩, h.2⟩)
  else .error .insideCharacter

example : slice "aéb" 1 3 = .ok "é" := rfl

example : slice "aéb" 0 2 = .error .insideCharacter := rfl

/-- The number before a number. -/
def oneLess : Nat → Except OffsetFault Nat
  | 0 => .error .belowZero
  | n + 1 => .ok n

/-- The number after a number, while a text is read. -/
def oneMore (t : String) (n : Nat) : Except OffsetFault Nat :=
  if n < t.utf8ByteSize then .ok (n + 1) else .error .aboveSize

/-- Characters with the offsets at which they start, the first of them at `offset`. -/
def charOffsetsFrom (offset : Nat) : List Char → List (Nat × Char)
  | [] => []
  | c :: cs => (offset, c) :: charOffsetsFrom (offset + c.utf8Size) cs

/-- The characters of a text with the offsets at which they start. -/
def charOffsets (t : String) : List (Nat × Char) := charOffsetsFrom 0 t.toList

end ColumnAudit.Text
