import ColumnAudit.Yaml.ScalarText

/-! # The spots of printable texts

The printer writes printable characters only. Such a text is read character by character
(`spotsFrom_eq_placed`): each spot holds the character that is written, at the position behind the ones
before it.
-/

namespace ColumnAudit.Yaml
set_option autoImplicit false

/-! ## Positions -/

/-- The position behind a character. -/
def Mark.behind (m : Mark) (c : Char) : Mark := if isBreak c then m.nextLine 1 else m.next

/-- The position behind some characters. -/
def Mark.after (m : Mark) (cs : List Char) : Mark := cs.foldl Mark.behind m

/-- Characters as spots from a position on. -/
def placed (m : Mark) : List Char → List Spot
  | [] => []
  | c :: cs => ⟨c, m⟩ :: placed (m.behind c) cs

namespace Mark

theorem after_nil (m : Mark) : m.after [] = m := rfl

theorem after_cons (m : Mark) (c : Char) (cs : List Char) :
    m.after (c :: cs) = (m.behind c).after cs := rfl

theorem after_append (m : Mark) (a b : List Char) : m.after (a ++ b) = (m.after a).after b :=
  List.foldl_append

theorem behind_of_break {m : Mark} {c : Char} (h : isBreak c = true) : m.behind c = m.nextLine 1 :=
  if_pos h

theorem behind_of_not_break {m : Mark} {c : Char} (h : isBreak c = false) : m.behind c = m.next :=
  if_neg (by rw [h]; exact Bool.false_ne_true)

theorem line_le_after (m : Mark) (cs : List Char) : m.line ≤ (m.after cs).line := by
  induction cs generalizing m with
  | nil => exact Nat.le_refl _
  | cons c cs ih =>
    rw [after_cons]
    refine Nat.le_trans ?_ (ih _)
    unfold behind
    split
    · exact Nat.le_succ _
    · exact Nat.le_refl _

theorem after_of_no_break {m : Mark} {cs : List Char} (h : ∀ c ∈ cs, isBreak c = false) :
    m.after cs = ⟨m.index + cs.length, m.line, m.column + cs.length⟩ := by
  induction cs generalizing m with
  | nil => rfl
  | cons c cs ih =>
    rw [after_cons, behind_of_not_break (h c (List.mem_cons_self ..)),
      ih fun d hd => h d (List.mem_cons_of_mem _ hd)]
    simp only [next, List.length_cons, Mark.mk.injEq, true_and]
    omega

end Mark

/-! ## Placed characters -/

theorem length_placed (m : Mark) (cs : List Char) : (placed m cs).length = cs.length := by
  induction cs generalizing m with
  | nil => rfl
  | cons c cs ih => rw [placed, List.length_cons, List.length_cons, ih]

theorem nextChar_placed (m : Mark) (cs : List Char) : nextChar (placed m cs) = cs.head? := by
  cases cs with
  | nil => rfl
  | cons c cs => rfl

theorem char_of_mem_placed {m : Mark} {cs : List Char} {s : Spot} (h : s ∈ placed m cs) :
    s.char ∈ cs := by
  induction cs generalizing m with
  | nil => cases h
  | cons c cs ih =>
    rcases List.mem_cons.1 h with rfl | h
    · exact List.mem_cons_self ..
    · exact List.mem_cons_of_mem _ (ih h)

/-! ## Printable characters -/

section Printable
variable {c : Char} (h : isPrintable c = true)
include h

theorem ne_return_of_printable : c ≠ '\r' := by
  rintro rfl
  exact absurd h (by decide)

theorem ne_nextLine_of_printable : c ≠ '\u0085' := by
  rintro rfl
  exact absurd h (by decide)

theorem ne_tab_of_printable : c ≠ '\t' := by
  rintro rfl
  exact absurd h (by decide)

theorem isAllowed_of_printable : isAllowed c = true := by
  simp only [isPrintable, isAllowed, Bool.or_eq_true, Bool.and_eq_true, decide_eq_true_eq,
    beq_iff_eq, bne_iff_ne, ne_eq] at h ⊢
  omega

theorem isGap_iff_of_printable : isGap c = true ↔ c = ' ' := by
  simp [isGap, ne_tab_of_printable h]

theorem visible_of_printable (hspace : c ≠ ' ') (hbreak : isBreak c = false) :
    (isGap c || isBreak c) = false := by
  rw [hbreak, Bool.or_false, Bool.eq_false_iff]
  exact fun hgap => hspace ((isGap_iff_of_printable h).1 hgap)

end Printable

theorem spotsFrom_eq_placed {m : Mark} {cs : List Char} (h : ∀ c ∈ cs, isPrintable c = true) :
    spotsFrom m cs = (placed m cs, m.after cs) := by
  induction cs generalizing m with
  | nil => rfl
  | cons c cs ih =>
    have hc := h c (List.mem_cons_self ..)
    have hreturn := ne_return_of_printable hc
    have hnormal : (if isBreak c then normalBreak c else c) = c := by
      split
      · rw [normalBreak, if_neg (not_or.2 ⟨hreturn, ne_nextLine_of_printable hc⟩)]
      · rfl
    rw [spotsFrom]
    · rw [ih fun d hd => h d (List.mem_cons_of_mem _ hd), hnormal]
      rfl
    · intro rest heq
      exact absurd heq hreturn

end ColumnAudit.Yaml
