import ColumnAudit.Proofs.Schema.Layout
import Mathlib.Algebra.Group.Nat.Even

/-! # Scans of a line by what stands before a place

The two scans over a body on a single line carry a flag for literals and a depth of parentheses from
character to character. What they do at a place depends on counts over the text before it: a place is
outside literals if an even number of quotes stands before it, and `openParens` counts the parentheses
that are open there. So a line is cut off at its first two dashes outside literals, and cut apart at its
commas outside literals and parentheses (`scans_count_what_is_before`).

Both inductions run along the line, with the text already passed as a parameter: the flag and the depth
of the scan are always those of that text (`literalBehind_concat`, `openParens_reverse_concat`).
-/

namespace ColumnAudit.Schema
open Text
set_option autoImplicit false

/-! ## Counts over the text before a place -/

/-- The parentheses that are open behind a text, whose characters are given from the last to the first.
Those inside literals do not count, and neither does a closing one when none is open. -/
def openParens : List Char → Nat
  | [] => 0
  | c :: before =>
    if Even (before.count '\x27') then
      if c = '(' then openParens before + 1
      else if c = ')' then openParens before - 1
      else openParens before
    else openParens before

/-- A place outside literals and parentheses, given by the text before it. -/
structure TopLevel (before : List Char) : Prop where
  unquoted : Even (before.count '\x27')
  flat : openParens before.reverse = 0

/-- A place where a comment starts: two dashes, an even number of quotes before both of them. -/
structure OpensComment (before rest : List Char) : Prop where
  dashes : ['-', '-'] <+: rest
  first : Even (before.count '\x27')
  second : Even ((before ++ ['-']).count '\x27')

theorem literalBehind_eq_false_iff {before : List Char} :
    literalBehind false before = false ↔ Even (before.count '\x27') := by
  rw [literalBehind, Bool.false_xor, beq_eq_false_iff_ne, Nat.even_iff]
  omega

theorem literalBehind_concat (before : List Char) (c : Char) :
    literalBehind false (before ++ [c]) =
      if c = '\x27' then !literalBehind false before else literalBehind false before := by
  rw [literalBehind, literalBehind, Bool.false_xor, Bool.false_xor, List.count_append]
  by_cases hc : c = '\x27'
  · have hone : [c].count '\x27' = 1 := by rw [hc]; rfl
    rw [if_pos hc, hone]
    rcases Nat.mod_two_eq_zero_or_one (before.count '\x27') with h | h <;> simp [Nat.add_mod, h]
  · have hnone : [c].count '\x27' = 0 := List.count_eq_zero.2 (by simpa using Ne.symm hc)
    rw [if_neg hc, hnone, Nat.add_zero]

theorem openParens_reverse_concat (before : List Char) (c : Char) :
    openParens (before ++ [c]).reverse =
      if literalBehind false before then openParens before.reverse
      else if c = '(' then openParens before.reverse + 1
      else if c = ')' then openParens before.reverse - 1
      else openParens before.reverse := by
  have hreverse : (before ++ [c]).reverse = c :: before.reverse := by simp
  rw [hreverse, openParens, List.count_reverse]
  by_cases heven : Even (before.count '\x27')
  · rw [if_pos heven, literalBehind_eq_false_iff.2 heven, if_neg Bool.false_ne_true]
  · have hliteral : literalBehind false before = true := by
      rwa [← Bool.not_eq_false, literalBehind_eq_false_iff]
    rw [if_neg heven, hliteral, if_pos rfl]

/-! ## Comments -/

/-- What is kept of a text goes up to the first place behind it where a comment starts. -/
theorem stripCommentFrom_eq (before t : List Char) : ∃ dropped,
    t = stripCommentFrom (literalBehind false before) t ++ dropped ∧
      (dropped = [] ∨
        OpensComment (before ++ stripCommentFrom (literalBehind false before) t) dropped) ∧
      ∀ front rest, t = front ++ rest →
        front.length < (stripCommentFrom (literalBehind false before) t).length →
        ¬ OpensComment (before ++ front) rest := by
  induction t generalizing before with
  | nil => exact ⟨[], rfl, .inl rfl, fun _ _ _ hlength => absurd hlength (Nat.not_lt_zero _)⟩
  | cons c t ih =>
    by_cases hopens : OpensComment before (c :: t)
    · have hkept : stripCommentFrom (literalBehind false before) (c :: t) = [] := by
        obtain ⟨⟨back, hback⟩, hfirst, -⟩ := hopens
        rw [literalBehind_eq_false_iff.2 hfirst, ← hback]
        rfl
      rw [hkept]
      refine ⟨c :: t, rfl, .inr ?_, fun _ _ _ hlength => absurd hlength (Nat.not_lt_zero _)⟩
      rwa [List.append_nil]
    · have hkept : stripCommentFrom (literalBehind false before) (c :: t) =
          c :: stripCommentFrom (literalBehind false (before ++ [c])) t := by
        rw [literalBehind_concat, stripCommentFrom]
        split
        · rfl
        · rename_i hquote
          refine if_neg fun hdashes => hopens ?_
          simp only [Bool.and_eq_true, Bool.not_eq_true', beq_iff_eq] at hdashes
          obtain ⟨⟨hliteral, rfl⟩, hhead⟩ := hdashes
          obtain ⟨back, rfl⟩ := List.head?_eq_some_iff.1 hhead
          have heven := literalBehind_eq_false_iff.1 hliteral
          refine ⟨⟨back, rfl⟩, heven, ?_⟩
          rw [List.count_append]
          exact heven
      obtain ⟨dropped, ht, hend, hbefore⟩ := ih (before ++ [c])
      rw [hkept]
      refine ⟨dropped, by rw [List.cons_append, ← ht], ?_, ?_⟩
      · rwa [List.append_cons]
      · intro front rest hsplit hlength
        cases front with
        | nil =>
          rw [List.nil_append] at hsplit
          rwa [List.append_nil, ← hsplit]
        | cons d front =>
          rw [List.cons_append, List.cons.injEq] at hsplit
          obtain ⟨rfl, hsplit⟩ := hsplit
          rw [List.append_cons]
          exact hbefore front rest hsplit (Nat.lt_of_succ_lt_succ hlength)

/-! ## Pieces -/

/-- A place between two pieces, given by the joined pieces before and behind it. -/
def CutAt (pieces : List (List Char)) (before after : List Char) : Prop :=
  ∃ front back, front ≠ [] ∧ back ≠ [] ∧ pieces = front ++ back ∧
    [','].intercalate front = before ∧ [','].intercalate back = after

section Cuts
variable {pieces : List (List Char)} {before after : List Char}

theorem intercalate_consFirst (c : Char) (hpieces : pieces ≠ []) :
    [','].intercalate (consFirst c pieces) = c :: [','].intercalate pieces := by
  cases pieces with
  | nil => exact absurd rfl hpieces
  | cons p ps =>
    cases ps with
    | nil => rfl
    | cons q ps => rw [consFirst, List.intercalate_cons_cons, List.intercalate_cons_cons]; rfl

theorem cutAt_consFirst {c : Char} (hpieces : pieces ≠ []) :
    CutAt (consFirst c pieces) before after ↔ ∃ rest, before = c :: rest ∧ CutAt pieces rest after := by
  cases pieces with
  | nil => exact absurd rfl hpieces
  | cons p ps =>
    constructor
    · rintro ⟨front, back, hfront, hback, hsplit, rfl, rfl⟩
      cases front with
      | nil => exact absurd rfl hfront
      | cons q front =>
        obtain ⟨rfl, rfl⟩ := List.cons.inj hsplit
        have hcons := intercalate_consFirst c (List.cons_ne_nil p front)
        exact ⟨_, hcons, p :: front, back, List.cons_ne_nil p front, hback, rfl, rfl, rfl⟩
    · rintro ⟨rest, rfl, front, back, hfront, hback, hsplit, rfl, rfl⟩
      have hcons := intercalate_consFirst c hfront
      cases front with
      | nil => exact absurd rfl hfront
      | cons q front =>
        obtain ⟨rfl, rfl⟩ := List.cons.inj hsplit
        exact ⟨(c :: p) :: front, back, List.cons_ne_nil _ front, hback, rfl, hcons, rfl⟩

theorem cutAt_nil_cons (hpieces : pieces ≠ []) :
    CutAt ([] :: pieces) before after ↔ before = [] ∧ after = [','].intercalate pieces ∨
      ∃ rest, before = ',' :: rest ∧ CutAt pieces rest after := by
  constructor
  · rintro ⟨front, back, hfront, hback, hsplit, rfl, rfl⟩
    cases front with
    | nil => exact absurd rfl hfront
    | cons q front =>
      obtain ⟨rfl, rfl⟩ := List.cons.inj hsplit
      cases front with
      | nil => exact .inl ⟨rfl, rfl⟩
      | cons p front =>
        have hcons : [','].intercalate ([] :: p :: front) = ',' :: [','].intercalate (p :: front) :=
          List.intercalate_cons_cons ..
        exact .inr ⟨_, hcons, p :: front, back, List.cons_ne_nil p front, hback, rfl, rfl, rfl⟩
  · rintro (⟨rfl, rfl⟩ | ⟨rest, rfl, front, back, hfront, hback, rfl, rfl, rfl⟩)
    · exact ⟨[[]], pieces, List.cons_ne_nil [] [], hpieces, rfl, rfl, rfl⟩
    · refine ⟨[] :: front, back, List.cons_ne_nil [] front, hback, rfl, ?_, rfl⟩
      cases front with
      | nil => exact absurd rfl hfront
      | cons p front => exact List.intercalate_cons_cons ..

/-- The pieces of what comes behind a text. -/
def piecesBehind (before t : List Char) : List (List Char) :=
  splitFrom (literalBehind false before) (openParens before.reverse) t

theorem piecesBehind_ne_nil (before t : List Char) : piecesBehind before t ≠ [] :=
  splitFrom_ne_nil _ _ t

theorem piecesBehind_comma (h : TopLevel before) (t : List Char) :
    piecesBehind before (',' :: t) = [] :: piecesBehind (before ++ [',']) t := by
  have hliteral := literalBehind_eq_false_iff.2 h.unquoted
  rw [piecesBehind, piecesBehind, literalBehind_concat, openParens_reverse_concat, hliteral, h.flat]
  rfl

theorem piecesBehind_cons {c : Char} (h : ¬ (c = ',' ∧ TopLevel before)) (t : List Char) :
    piecesBehind before (c :: t) = consFirst c (piecesBehind (before ++ [c]) t) := by
  have hcut : literalBehind false before = false → ¬ (c = ',' ∧ openParens before.reverse = 0) :=
    fun hliteral hcomma => h ⟨hcomma.1, literalBehind_eq_false_iff.1 hliteral, hcomma.2⟩
  rw [piecesBehind, piecesBehind, literalBehind_concat, openParens_reverse_concat, splitFrom]
  by_cases hquote : c = '\x27'
  · rw [if_pos hquote, if_pos hquote]
    simp [hquote]
  · rw [if_neg hquote, if_neg hquote]
    cases hliteral : literalBehind false before with
    | true => rfl
    | false =>
      rw [if_neg Bool.false_ne_true, if_neg Bool.false_ne_true, if_neg (hcut hliteral)]
      split
      · rfl
      · split <;> rfl

theorem intercalate_piecesBehind (passed t : List Char) :
    [','].intercalate (piecesBehind passed t) = t := by
  induction t generalizing passed with
  | nil => rfl
  | cons c t ih =>
    by_cases hcut : c = ',' ∧ TopLevel passed
    · obtain ⟨rfl, htop⟩ := hcut
      rw [piecesBehind_comma htop]
      obtain ⟨p, ps, hpieces⟩ := List.exists_cons_of_ne_nil (piecesBehind_ne_nil (passed ++ [',']) t)
      have hjoin := ih (passed ++ [','])
      rw [hpieces] at hjoin ⊢
      rw [List.intercalate_cons_cons, hjoin]
      rfl
    · rw [piecesBehind_cons hcut, intercalate_consFirst c (piecesBehind_ne_nil _ t), ih]

/-- Behind a text that is passed, the cuts are at the commas outside literals and parentheses. -/
theorem cutAt_piecesBehind_iff (passed t : List Char) :
    CutAt (piecesBehind passed t) before after ↔
      t = before ++ ',' :: after ∧ TopLevel (passed ++ before) := by
  induction t generalizing passed before with
  | nil =>
    have hlone : ¬ CutAt (piecesBehind passed []) before after := by
      rintro ⟨front, back, hfront, hback, hsplit, -, -⟩
      have hlength := congrArg List.length hsplit
      have hfront := List.length_pos_iff.2 hfront
      have hback := List.length_pos_iff.2 hback
      rw [List.length_append, piecesBehind, splitFrom, List.length_singleton] at hlength
      omega
    simp [hlone]
  | cons c t ih =>
    have hne := piecesBehind_ne_nil (passed ++ [c]) t
    have hlater : (∃ rest, before = c :: rest ∧ CutAt (piecesBehind (passed ++ [c]) t) rest after) ↔
        before ≠ [] ∧ c :: t = before ++ ',' :: after ∧ TopLevel (passed ++ before) := by
      cases before with
      | nil => simp
      | cons d rest =>
        simp only [List.cons.injEq, List.cons_append, ne_eq, reduceCtorEq, not_false_eq_true, true_and]
        constructor
        · rintro ⟨rest', ⟨rfl, rfl⟩, hrest⟩
          obtain ⟨ht, htop⟩ := (ih (passed ++ [d])).1 hrest
          exact ⟨⟨rfl, ht⟩, by rwa [List.append_cons]⟩
        · rintro ⟨⟨rfl, ht⟩, htop⟩
          rw [List.append_cons] at htop
          exact ⟨rest, ⟨rfl, rfl⟩, (ih (passed ++ [c])).2 ⟨ht, htop⟩⟩
    by_cases hcut : c = ',' ∧ TopLevel passed
    · obtain ⟨rfl, htop⟩ := hcut
      rw [piecesBehind_comma htop, cutAt_nil_cons hne, hlater, intercalate_piecesBehind]
      by_cases hbefore : before = []
      · simp [hbefore, htop, eq_comm]
      · simp [hbefore]
    · rw [piecesBehind_cons hcut, cutAt_consFirst hne, hlater, and_iff_right_iff_imp]
      rintro ⟨ht, htop⟩ rfl
      rw [List.nil_append, List.cons.injEq] at ht
      rw [List.append_nil] at htop
      exact hcut ⟨ht.1, htop⟩

end Cuts

/-- A line is cut off at its first two dashes with an even number of quotes before each of them. It is
cut apart at exactly those commas before which the number of quotes is even and no parenthesis outside
literals is open, so that its pieces with commas between them are the line. -/
theorem scans_count_what_is_before (line : List Char) :
    (∃ dropped, line = stripComment line ++ dropped ∧
      (dropped = [] ∨ OpensComment (stripComment line) dropped) ∧
      ∀ before rest, line = before ++ rest → before.length < (stripComment line).length →
        ¬ OpensComment before rest) ∧
    (splitTopLevel line ≠ [] ∧ ∀ before after, CutAt (splitTopLevel line) before after ↔
      line = before ++ ',' :: after ∧ TopLevel before) ∧
    [','].intercalate (splitTopLevel line) = line :=
  ⟨stripCommentFrom_eq [] line, ⟨piecesBehind_ne_nil [] line, fun _ _ => cutAt_piecesBehind_iff [] line⟩,
    intercalate_piecesBehind [] line⟩

example : stripComment "a 'it''s -- kept' -- dropped".toList = "a 'it''s -- kept' ".toList := by
  decide +kernel

example : splitTopLevel "a numeric(10, 2)), b text default ', (', c".toList =
    ["a numeric(10, 2))".toList, " b text default ', ('".toList, " c".toList] := by decide +kernel

end ColumnAudit.Schema
