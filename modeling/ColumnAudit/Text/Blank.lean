/-! # Blank characters, trimming, pieces

A blank is a character with the Unicode property White_Space. Every place of the program that speaks
of white space in a schema or a source means this set.

* `trim` drops blanks at both ends.
* `pieces sep` cuts a text at every `sep`; joining the pieces with `sep` gives the text back
  (`join_pieces`), and no piece holds `sep` (`not_mem_of_mem_pieces`).
-/

namespace ColumnAudit.Text
set_option autoImplicit false

/-- The characters with the property White_Space. -/
def isBlank (c : Char) : Bool :=
  let n := c.toNat
  (0x09 ≤ n && n ≤ 0x0D) || n == 0x20 || n == 0x85 || n == 0xA0 || n == 0x1680 ||
    (0x2000 ≤ n && n ≤ 0x200A) || n == 0x2028 || n == 0x2029 || n == 0x202F || n == 0x205F ||
    n == 0x3000

example : isBlank ' ' ∧ isBlank '\n' ∧ isBlank '\x0b' ∧ isBlank '\u00a0' ∧ isBlank '\u3000' := by
  decide

example : ¬ isBlank '\u200b' ∧ ¬ isBlank '\ufeff' ∧ ¬ isBlank '\x1c' := by decide

/-! ## Trimming -/

/-- The text without its leading blanks. -/
def trimStart (t : List Char) : List Char := t.dropWhile isBlank

/-- The text without its trailing blanks. -/
def trimEnd (t : List Char) : List Char := (t.reverse.dropWhile isBlank).reverse

/-- The text without the blanks at its ends. -/
def trim (t : List Char) : List Char := trimEnd (trimStart t)

/-! ## Pieces -/

/-- The stretches of a text between the occurrences of `sep`, one more than there are occurrences. -/
def pieces (sep : Char) : List Char → List (List Char)
  | [] => [[]]
  | c :: cs =>
    if c = sep then [] :: pieces sep cs
    else match pieces sep cs with
      | [] => [[c]]
      | p :: ps => (c :: p) :: ps

theorem pieces_ne_nil (sep : Char) (t : List Char) : pieces sep t ≠ [] := by
  cases t with
  | nil => simp [pieces]
  | cons c cs =>
    simp only [pieces]
    split
    · simp
    · split <;> simp

theorem pieces_cons_of_ne {sep c : Char} (h : c ≠ sep) (cs : List Char) :
    ∃ p ps, pieces sep cs = p :: ps ∧ pieces sep (c :: cs) = (c :: p) :: ps := by
  cases hp : pieces sep cs with
  | nil => exact absurd hp (pieces_ne_nil sep cs)
  | cons p ps => exact ⟨p, ps, rfl, by simp [pieces, h, hp]⟩

theorem not_mem_of_mem_pieces {sep : Char} {t p : List Char} (h : p ∈ pieces sep t) : sep ∉ p := by
  induction t generalizing p with
  | nil =>
    simp only [pieces, List.mem_singleton] at h
    simp [h]
  | cons c cs ih =>
    by_cases hc : c = sep
    · simp only [pieces, hc, if_true, List.mem_cons] at h
      rcases h with rfl | h
      · simp
      · exact ih h
    · obtain ⟨q, qs, hq, hcons⟩ := pieces_cons_of_ne hc cs
      rw [hcons, List.mem_cons] at h
      rcases h with rfl | h
      · have : sep ∉ q := ih (by simp [hq])
        simp [this, Ne.symm hc]
      · exact ih (by simp [hq, h])

/-- Joining the pieces gives the text back. -/
theorem join_pieces (sep : Char) (t : List Char) : [sep].intercalate (pieces sep t) = t := by
  induction t with
  | nil => simp [pieces, List.intercalate]
  | cons c cs ih =>
    by_cases hc : c = sep
    · cases hp : pieces sep cs with
      | nil => exact absurd hp (pieces_ne_nil sep cs)
      | cons p ps =>
        rw [hp] at ih
        simp only [pieces, hc, if_true, hp]
        simpa [List.intercalate, List.intersperse] using ih
    · obtain ⟨q, qs, hq, hcons⟩ := pieces_cons_of_ne hc cs
      rw [hcons]
      rw [hq] at ih
      cases qs with
      | nil => simpa [List.intercalate, List.intersperse] using ih
      | cons r rs => simpa [List.intercalate, List.intersperse] using ih

/-- The lines of a text: its pieces between line feeds. -/
def lines (t : List Char) : List (List Char) := pieces '\n' t

end ColumnAudit.Text
