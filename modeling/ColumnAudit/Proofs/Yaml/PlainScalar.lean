import ColumnAudit.Proofs.Yaml.Spot
import ColumnAudit.Yaml.ScalarForm

/-! # Plain scalars

A text that allows the plain form is read back from it, both as the key of a pair (`plainFrom_key`) and as
a value with a line end behind it (`plainFrom_value`). On the way through one line, what has been read and
the spaces behind it are the part of the text that has been passed (`plainFrom_line`).
-/

namespace ColumnAudit.Yaml
set_option autoImplicit false

/-! ## Gaps in a line -/

/-- The gap that some spaces are. -/
def inlineGap (blanks : List Char) : Option Gap :=
  if blanks = [] then none else some ⟨blanks, false, .none, []⟩

theorem getD_inlineGap (b : List Char) : (inlineGap b).getD .none = ⟨b, false, .none, []⟩ := by
  unfold inlineGap
  split
  · rename_i h
    rw [h]
    rfl
  · rfl

theorem text_inlineGap (b : List Char) : ((inlineGap b).getD .none).text = b := by
  rw [getD_inlineGap]
  rfl

theorem add_space_inlineGap (b : List Char) :
    some (((inlineGap b).getD .none).add ' ') = inlineGap (b ++ [' ']) := by
  rw [getD_inlineGap, inlineGap, if_neg (by simp)]
  rfl

theorem isSome_inlineGap {b : List Char} : (inlineGap b).isSome = true ↔ b ≠ [] := by
  unfold inlineGap
  split
  · rename_i h
    simp [h]
  · rename_i h
    simp [h]

/-- No document starts or ends inside a line. -/
theorem isDocumentMark_of_column {m : Mark} (h : 0 < m.column) (cs : List Char) :
    isDocumentMark (placed m cs) = false := by
  have hcolumn : (m.column == 0) = false := beq_eq_false_iff_ne.2 (by omega)
  have hmark : ∀ mark, isTripled mark (placed m cs) = false := by
    intro mark
    match cs with
    | [] => rfl
    | [_] => rfl
    | [_, _] => rfl
    | _ :: _ :: _ :: _ => simp only [placed, isTripled, hcolumn, Bool.false_and]
  rw [isDocumentMark, hmark, hmark]
  rfl

theorem isGap_space : isGap ' ' = true := by decide

theorem isBreak_space : isBreak ' ' = false := by decide

theorem isBreak_newline : isBreak '\n' = true := by decide

theorem isBreak_spaces (k : Nat) : ∀ c ∈ spaces k, isBreak c = false := by
  intro c hc
  rw [List.eq_of_mem_replicate hc]
  exact isBreak_space

theorem Mark.after_spaces (m : Mark) (k : Nat) :
    m.after (spaces k) = ⟨m.index + k, m.line, m.column + k⟩ := by
  rw [after_of_no_break (isBreak_spaces k), spaces, List.length_replicate]

/-! ## Through one line -/

section Plain
variable {indent : Int} {cs : List Char}

/-- A plain scalar goes on over characters that do not structure it. -/
theorem plainFrom_line (hprintable : ∀ c ∈ cs, isPrintable c = true)
    (hline : ∀ c ∈ cs, isBreak c = false) {wordEnded : Bool} (hmarks : hasMark wordEnded cs = false)
    (hlast : ∀ c ∈ cs.getLast?, isGap c = false) {m : Mark} {b done : List Char}
    (hgap : b ≠ [] → cs ≠ [] ∧ wordEnded = true ∧ 0 < m.column ∧ indent ≤ m.column)
    (hcolumn : indent ≤ m.column + 1) (tail : List Char) :
    plainFrom false indent (inlineGap b) done (placed m (cs ++ tail)) =
      plainFrom false indent none (cs.reverse ++ (b.reverse ++ done))
        (placed (m.after cs) tail) := by
  induction cs generalizing m b done wordEnded with
  | nil =>
    have hb : b = [] := Decidable.byContradiction fun h => (hgap h).1 rfl
    rw [hb]
    rfl
  | cons c cs ih =>
    have hc := hprintable c (List.mem_cons_self ..)
    have hbreak := hline c (List.mem_cons_self ..)
    have hprintable' : ∀ d ∈ cs, isPrintable d = true :=
      fun d hd => hprintable d (List.mem_cons_of_mem _ hd)
    have hline' : ∀ d ∈ cs, isBreak d = false := fun d hd => hline d (List.mem_cons_of_mem _ hd)
    have hlast' : ∀ d ∈ cs.getLast?, isGap d = false := by
      cases cs with
      | nil => simp
      | cons d cs => simpa only [List.getLast?_cons_cons] using hlast
    simp only [hasMark, Bool.or_eq_false_iff] at hmarks
    obtain ⟨⟨hcolon, hcomment⟩, hmarks⟩ := hmarks
    rw [List.cons_append, placed, Mark.after_cons, Mark.behind_of_not_break hbreak, plainFrom]
    have hnext : indent ≤ m.next.column := hcolumn
    by_cases hspace : c = ' '
    · -- A space goes into the gap. It is not the last character, so something ends the gap again.
      subst hspace
      have hne : cs ≠ [] := by
        rintro rfl
        exact absurd (hlast ' ' rfl) (by decide)
      have htab : ¬ ((' ' : Char) = '\t' ∧ ((inlineGap b).getD .none).broken = true ∧
          m.column < indent) := fun h => absurd h.1 (by decide)
      simp only [isGap_space, Bool.true_or, if_true, if_neg htab, add_space_inlineGap]
      rw [ih hprintable' hline' hmarks hlast'
        (fun _ => ⟨hne, rfl, Nat.succ_pos _, hnext⟩) (by omega)]
      simp
    · have hnotGap := visible_of_printable hc hspace hbreak
      -- Behind a gap there is neither a comment nor a mark of a document, and the line is long enough.
      have hgoes : ((inlineGap b).isSome && (c == '#' || isDocumentMark (placed m (c :: (cs ++ tail))) ||
          (!false && decide ((m.column : Int) < indent)))) = false := by
        rw [Bool.and_eq_false_iff]
        by_cases hb : b = []
        · left
          rw [Bool.eq_false_iff, Ne, isSome_inlineGap]
          exact not_not_intro hb
        · right
          obtain ⟨-, hword, hpos, hmargin⟩ := hgap hb
          rw [hword, Bool.and_true] at hcomment
          have hmargin' : ¬ (m.column : Int) < indent := by omega
          rw [hcomment, isDocumentMark_of_column hpos]
          simp [hmargin']
      have hcolon' : (c == ':' && endsWord (nextChar (placed m.next (cs ++ tail)))) = false := by
        rw [nextChar_placed]
        cases cs with
        | nil =>
          have hne : (c == ':') = false := by simpa [endsWord] using hcolon
          rw [hne]
          rfl
        | cons d cs => exact hcolon
      have hplaced : (⟨c, m⟩ : Spot) :: placed m.next (cs ++ tail) = placed m (c :: (cs ++ tail)) := by
        rw [placed, Mark.behind_of_not_break hbreak]
      rw [← hplaced] at hgoes
      simp only [hnotGap, hgoes, hcolon', Bool.false_and, Bool.or_false, Bool.false_eq_true,
        if_false, text_inlineGap]
      refine (ih hprintable' hline' hmarks hlast' (b := []) (fun h => absurd rfl h)
        (by omega)).trans ?_
      simp

/-- A text that can stand without quotes, with at least one character. -/
structure IsPlain (cs : List Char) : Prop where
  nonempty : cs ≠ []
  allows : allowsPlain cs = true

namespace IsPlain
variable (h : IsPlain cs)
include h

theorem printable : ∀ c ∈ cs, isPrintable c = true := by
  have hall := h.allows
  simp only [allowsPlain, Bool.and_eq_true, List.all_eq_true] at hall
  exact hall.1.1.1

theorem one_line : ∀ c ∈ cs, isBreak c = false := by
  have hall := h.allows
  simp only [allowsPlain, Bool.and_eq_true, Bool.not_eq_true', List.any_eq_false,
    Bool.not_eq_true] at hall
  exact hall.1.1.2

theorem no_marks : hasMark true cs = false := by
  have hall := h.allows
  simp only [allowsPlain, Bool.and_eq_true, Bool.not_eq_true', looksStructural,
    Bool.or_eq_false_iff] at hall
  exact hall.2.1.2

theorem not_gap_last : ∀ c ∈ cs.getLast?, isGap c = false := by
  intro c hlast
  have hall := h.allows
  simp only [allowsPlain, Bool.and_eq_true, Bool.not_eq_true', hasBlankEdge,
    Bool.or_eq_false_iff] at hall
  have hspace := hall.1.2.2
  rw [Option.mem_def.1 hlast, Option.any_some, Bool.or_eq_false_iff] at hspace
  rw [Bool.eq_false_iff]
  intro hgap
  rw [(isGap_iff_of_printable (h.printable c (List.mem_of_getLast? hlast))).1 hgap] at hspace
  exact absurd hspace.1 (by decide)

end IsPlain

theorem plainFrom_plain (h : IsPlain cs) {m : Mark} (hcolumn : indent ≤ m.column + 1)
    (tail : List Char) :
    plainFrom false indent none [] (placed m (cs ++ tail)) =
      plainFrom false indent none cs.reverse (placed (m.after cs) tail) := by
  refine (plainFrom_line h.printable h.one_line h.no_marks h.not_gap_last (b := [])
    (fun hb => absurd rfl hb) hcolumn tail).trans ?_
  simp

theorem plainFrom_key (h : IsPlain cs) {m : Mark} (hcolumn : indent ≤ m.column + 1)
    {tail : List Char} (htail : endsWord tail.head? = true) :
    plainFrom false indent none [] (placed m (cs ++ ':' :: tail)) =
      .ok ⟨cs, false, placed (m.after cs) (':' :: tail)⟩ := by
  have hcolon : (isGap ':' || isBreak ':') = false := by decide
  rw [plainFrom_plain h hcolumn, placed, plainFrom, nextChar_placed, htail]
  simp [hcolon, List.reverse_reverse]

/-! ## To the end of the line -/

/-- A character that a token can start with. -/
structure StartsToken (c : Char) : Prop where
  printable : isPrintable c = true
  not_space : c ≠ ' '
  not_break : isBreak c = false
  not_comment : c ≠ '#'

/-- What a text is in front of which a line of a collection ends: nothing, or a token at some column. -/
structure StartsLine (column : Nat) (cs : List Char) : Prop where
  column_eq_zero : cs = [] → column = 0
  starts : ∀ c ∈ cs.head?, StartsToken c

theorem StartsToken.head {c : Char} (h : StartsToken c) (cs : List Char) :
    ∀ d ∈ (c :: cs).head?, StartsToken d := by
  intro d hd
  obtain rfl := Option.some.inj hd
  exact h

theorem StartsToken.line {c : Char} (h : StartsToken c) (column : Nat) (cs : List Char) :
    StartsLine column (c :: cs) :=
  ⟨fun heq => absurd heq (List.cons_ne_nil _ _), h.head cs⟩

theorem StartsToken.not_gap {c : Char} (h : StartsToken c) : isGap c = false :=
  Bool.eq_false_iff.2 fun hgap => h.not_space ((isGap_iff_of_printable h.printable).1 hgap)

theorem plainFrom_spaces (m : Mark) (first : Option Char) (others done : List Char) (k : Nat)
    (tail : List Char) :
    plainFrom false indent (some ⟨[], true, first, others⟩) done (placed m (spaces k ++ tail)) =
      plainFrom false indent (some ⟨[], true, first, others⟩) done
        (placed (m.after (spaces k)) tail) := by
  induction k generalizing m with
  | zero => rfl
  | succ k ih =>
    have hspaces : spaces (k + 1) = ' ' :: spaces k := rfl
    have htab : ¬ ((' ' : Char) = '\t' ∧ ((some (⟨[], true, first, others⟩ : Gap)).getD .none).broken = true ∧
        m.column < indent) := fun h => absurd h.1 (by decide)
    rw [hspaces, List.cons_append, placed, plainFrom]
    simp only [isGap_space, Bool.true_or, if_true, if_neg htab]
    exact ih _

theorem plainFrom_value (h : IsPlain cs) {m : Mark} (hcolumn : indent ≤ m.column + 1) {k : Nat}
    (hk : (k : Int) < indent) {tail : List Char} (htail : StartsLine k tail) :
    plainFrom false indent none [] (placed m (cs ++ '\n' :: (spaces k ++ tail))) =
      .ok ⟨cs, true, placed (((m.after cs).behind '\n').after (spaces k)) tail⟩ := by
  have htab : ¬ (('\n' : Char) = '\t' ∧ ((none : Option Gap).getD .none).broken = true ∧
      (m.after cs).column < indent) := fun h => absurd h.1 (by decide)
  have hadd : ((none : Option Gap).getD .none).add '\n' = ⟨[], true, some '\n', []⟩ := by decide
  rw [plainFrom_plain h hcolumn, placed, plainFrom]
  simp only [isBreak_newline, Bool.or_true, if_true, if_neg htab, hadd]
  rw [plainFrom_spaces]
  cases tail with
  | nil =>
    rw [placed, plainFrom]
    simp
  | cons c tail =>
    have hgap := (htail.starts c rfl).not_gap
    have hbreak := (htail.starts c rfl).not_break
    have hleft : ((((m.after cs).behind '\n').after (spaces k)).column : Int) < indent := by
      rw [Mark.after_spaces, Mark.behind_of_break isBreak_newline]
      simpa [Mark.nextLine] using hk
    rw [placed, plainFrom]
    simp [hgap, hbreak, hleft]

end Plain

end ColumnAudit.Yaml
