import ColumnAudit.Proofs.Text.Blank
import ColumnAudit.Schema.Definition
import Mathlib.Data.List.Forall2

/-! # Line comments

Each character of a schema text is code, or it belongs to a string literal or to a line comment
(`Mode`). `uncommented` leaves the comments out and keeps the line feeds behind them. Inside a line
this is just what `stripCommentFrom` does (`uncommented_of_line`), and over several lines it acts on
each of them (`forall₂_lines_uncommented`).
-/

namespace ColumnAudit.Schema
open Text
set_option autoImplicit false

/-- What a character of a schema text belongs to. -/
inductive Mode where
  | code
  | literal
  | comment
deriving DecidableEq

namespace Mode

/-- The mode behind a character, given what comes behind it. A quote opens and closes literals, two
dashes in the code open a comment, and the end of the line closes it. -/
def next (rest : List Char) (c : Char) : Mode → Mode
  | code =>
    if c = '\x27' then literal else if c = '-' ∧ rest.head? = some '-' then comment else code
  | literal => if c = '\x27' then code else literal
  | comment => if c = '\n' then code else comment

/-- The mode behind a text. -/
def after : Mode → List Char → Mode
  | m, [] => m
  | m, c :: cs => (m.next cs c).after cs

end Mode

/-- A text without its comments. -/
def uncommented : Mode → List Char → List Char
  | _, [] => []
  | m, c :: cs =>
    if m.next cs c = .comment then uncommented .comment cs
    else c :: uncommented (m.next cs c) cs

example : uncommented .code "a '--' - b -- c's\nd".toList = "a '--' - b \nd".toList := by
  decide +kernel

section Modes
variable {m : Mode} {c : Char} {cs : List Char}

theorem next_eq_comment_iff : m.next cs c = .comment ↔
    (m = .code ∧ c = '-' ∧ cs.head? = some '-') ∨ (m = .comment ∧ c ≠ '\n') := by
  cases m with
  | code =>
    by_cases hc : c = '\x27'
    · simp [Mode.next, hc]
    · simp [Mode.next, hc]
  | literal =>
    by_cases hc : c = '\x27'
    · simp [Mode.next, hc]
    · simp [Mode.next, hc]
  | comment => simp [Mode.next]

theorem uncommented_cons_of_comment (h : m.next cs c = .comment) :
    uncommented m (c :: cs) = uncommented (m.next cs c) cs := by
  rw [uncommented, if_pos h, h]

theorem uncommented_cons_of_ne (h : m.next cs c ≠ .comment) :
    uncommented m (c :: cs) = c :: uncommented (m.next cs c) cs := by
  rw [uncommented, if_neg h]

/-! ## What is kept -/

theorem uncommented_sublist (m : Mode) (t : List Char) : (uncommented m t).Sublist t := by
  induction t generalizing m with
  | nil => exact .slnil
  | cons c cs ih =>
    by_cases h : m.next cs c = .comment
    · rw [uncommented_cons_of_comment h]
      exact (ih _).cons c
    · rw [uncommented_cons_of_ne h]
      exact (ih _).cons_cons c

theorem head?_uncommented_comment (t : List Char) :
    ∀ c ∈ (uncommented .comment t).head?, c = '\n' := by
  induction t with
  | nil => exact nofun
  | cons c cs ih =>
    by_cases hc : c = '\n'
    · have hnext : Mode.next cs c .comment ≠ .comment := by simp [Mode.next, hc]
      rw [uncommented_cons_of_ne hnext]
      rintro d ⟨⟩
      exact hc
    · have hnext : Mode.next cs c .comment = .comment := if_neg hc
      rw [uncommented_cons_of_comment hnext, hnext]
      exact ih

/-- The first character that is kept is the first character, or else a line feed behind a comment. -/
theorem head?_of_head?_uncommented {t : List Char} (hc : c ≠ '\n')
    (h : (uncommented m t).head? = some c) : t.head? = some c := by
  cases t with
  | nil => exact h
  | cons d t =>
    by_cases hnext : m.next t d = .comment
    · rw [uncommented_cons_of_comment hnext, hnext] at h
      exact absurd (head?_uncommented_comment t c h) hc
    · rw [uncommented_cons_of_ne hnext] at h
      exact h

/-- Two characters that stand together without the comments stand together in the text. -/
theorem pair_infix_of_uncommented {x y : Char} (hy : y ≠ '\n') {t : List Char}
    (h : [x, y] <:+: uncommented m t) : [x, y] <:+: t := by
  induction t generalizing m with
  | nil => exact h
  | cons c cs ih =>
    by_cases hnext : m.next cs c = .comment
    · rw [uncommented_cons_of_comment hnext] at h
      exact List.infix_cons (ih h)
    · rw [uncommented_cons_of_ne hnext] at h
      rcases List.infix_cons_iff.1 h with h | h
      · obtain ⟨rfl, hrest⟩ := List.cons_prefix_cons.1 h
        have hhead : (uncommented (m.next cs x) cs).head? = some y := by
          obtain ⟨u, hu⟩ := hrest
          rw [← hu]
          rfl
        have hy' := head?_of_head?_uncommented hy hhead
        obtain ⟨u, hu⟩ := List.head?_eq_some_iff.1 hy'
        rw [hu]
        exact ⟨[], u, rfl⟩
      · exact List.infix_cons (ih h)

/-! ## Parts of a text -/

/-- No two dashes meet where the two texts are joined. -/
def Parted (a b : List Char) : Prop := ¬ (a.getLast? = some '-' ∧ b.head? = some '-')

theorem Parted.of_head? {a b : List Char} (h : ∀ c ∈ b.head?, c ≠ '-') : Parted a b :=
  fun hdash => h '-' hdash.2 rfl

theorem next_append {a b : List Char} (h : Parted (c :: a) b) : m.next (a ++ b) c = m.next a c := by
  cases a with
  | nil =>
    cases m with
    | code =>
      by_cases hc : c = '-'
      · subst hc
        have hhead : b.head? ≠ some '-' := fun hhead => h ⟨rfl, hhead⟩
        simp [Mode.next, hhead]
      · simp [Mode.next, hc]
    | literal => rfl
    | comment => rfl
  | cons d a => rfl

theorem Parted.tail {a b : List Char} (h : Parted (c :: a) b) : Parted a b := by
  rintro ⟨hlast, hhead⟩
  refine h ⟨?_, hhead⟩
  rw [List.getLast?_cons, hlast]
  rfl

theorem uncommented_append {a b : List Char} (h : Parted a b) :
    uncommented m (a ++ b) = uncommented m a ++ uncommented (m.after a) b := by
  induction a generalizing m with
  | nil => rfl
  | cons c a ih =>
    have hsame := next_append h (m := m)
    by_cases hnext : m.next a c = .comment
    · rw [List.cons_append, uncommented_cons_of_comment (hsame.trans hnext),
        uncommented_cons_of_comment hnext, hsame, ih h.tail, Mode.after]
    · rw [List.cons_append, uncommented_cons_of_ne (hsame.trans_ne hnext),
        uncommented_cons_of_ne hnext, hsame, ih h.tail, Mode.after, List.cons_append]

/-- A text that neither opens a literal nor a comment. -/
def IsPlain (t : List Char) : Prop := ∀ c ∈ t, c ≠ '\x27' ∧ c ≠ '-'

theorem IsPlain.of_blank {t : List Char} (h : ∀ c ∈ t, isBlank c) : IsPlain t := by
  intro c hc
  constructor
  · rintro rfl
    exact absurd (h _ hc) (by decide)
  · rintro rfl
    exact absurd (h _ hc) (by decide)

theorem uncommented_code_append {a : List Char} (ha : IsPlain a) (b : List Char) :
    uncommented .code (a ++ b) = a ++ uncommented .code b := by
  induction a with
  | nil => rfl
  | cons c a ih =>
    obtain ⟨⟨hquote, hdash⟩, ha⟩ := List.forall_mem_cons.1 ha
    have hnext : Mode.next (a ++ b) c .code = .code := by simp [Mode.next, hquote, hdash]
    rw [List.cons_append, uncommented, hnext, if_neg (by decide), ih ha, List.cons_append]

/-! ## Dropping one comment -/

/-- A character that is kept is kept also where a text ends at its first comment. -/
theorem stripCommentFrom_cons {t : List Char} (hnext : m.next cs c ≠ .comment)
    (ht : t.head? = some '-' → cs.head? = some '-') :
    stripCommentFrom (m == .literal) (c :: t) =
      c :: stripCommentFrom (m.next cs c == .literal) t := by
  rw [Ne, next_eq_comment_iff, not_or] at hnext
  rw [stripCommentFrom]
  by_cases hc : c = '\x27'
  · have hmode : (m.next cs c == .literal) = !(m == .literal) := by
      cases m with
      | code => simp [Mode.next, hc]
      | literal => simp [Mode.next, hc]
      | comment => exact absurd ⟨rfl, by rw [hc]; decide⟩ hnext.2
    rw [if_pos hc, hmode]
  · have hmode : (m.next cs c == .literal) = (m == .literal) := by
      cases m with
      | code =>
        rw [Mode.next, if_neg hc]
        split <;> rfl
      | literal => rw [Mode.next, if_neg hc]
      | comment =>
        rw [Mode.next]
        split <;> rfl
    have hopens : (!(m == .literal) && c == '-' && t.head? == some '-') = false := by
      by_contra hopens
      simp only [Bool.not_eq_false, Bool.and_eq_true, beq_iff_eq, Bool.not_eq_true',
        beq_eq_false_iff_ne] at hopens
      obtain ⟨⟨hm, rfl⟩, hhead⟩ := hopens
      cases m with
      | code => exact hnext.1 ⟨rfl, rfl, ht hhead⟩
      | literal => exact hm rfl
      | comment => exact hnext.2 ⟨rfl, by decide⟩
    rw [if_neg hc, hopens, hmode]
    rfl

theorem stripCommentFrom_uncommented (m : Mode) (t : List Char) :
    stripCommentFrom (m == .literal) (uncommented m t) = uncommented m t := by
  induction t generalizing m with
  | nil => rfl
  | cons c cs ih =>
    by_cases hnext : m.next cs c = .comment
    · have hliteral : (m == .literal) = (Mode.comment == .literal) := by
        rcases next_eq_comment_iff.1 hnext with ⟨rfl, -⟩ | ⟨rfl, -⟩ <;> rfl
      rw [uncommented_cons_of_comment hnext, hliteral, hnext]
      exact ih .comment
    · rw [uncommented_cons_of_ne hnext,
        stripCommentFrom_cons hnext (head?_of_head?_uncommented (by decide)), ih]

theorem uncommented_comment_of_line {line : List Char} (hline : '\n' ∉ line) :
    uncommented .comment line = [] := by
  cases hhead : uncommented .comment line with
  | nil => rfl
  | cons c cs =>
    have hc : c = '\n' := head?_uncommented_comment line c (by rw [hhead]; rfl)
    have hmem : c ∈ line := (uncommented_sublist .comment line).mem (by rw [hhead]; simp)
    exact absurd (hc ▸ hmem) hline

theorem uncommented_of_line {line : List Char} (hline : '\n' ∉ line) (hm : m ≠ .comment) :
    uncommented m line = stripCommentFrom (m == .literal) line := by
  induction line generalizing m with
  | nil => rfl
  | cons c cs ih =>
    rw [List.mem_cons, not_or] at hline
    by_cases hnext : m.next cs c = .comment
    · rw [uncommented_cons_of_comment hnext, hnext, uncommented_comment_of_line hline.2]
      rcases next_eq_comment_iff.1 hnext with ⟨rfl, rfl, hhead⟩ | ⟨rfl, -⟩
      · obtain ⟨rest, rfl⟩ := List.head?_eq_some_iff.1 hhead
        rfl
      · exact absurd rfl hm
    · rw [uncommented_cons_of_ne hnext, stripCommentFrom_cons hnext id, ih hline.2 hnext]

theorem stripCommentFrom_plain_append {a : List Char} (ha : IsPlain a) (literal : Bool)
    (b : List Char) :
    stripCommentFrom literal (a ++ b) = a ++ stripCommentFrom literal b := by
  induction a with
  | nil => rfl
  | cons c a ih =>
    obtain ⟨⟨hquote, hdash⟩, ha⟩ := List.forall_mem_cons.1 ha
    have hopens : (!literal && c == '-' && (a ++ b).head? == some '-') = false := by simp [hdash]
    rw [List.cons_append, stripCommentFrom, if_neg hquote, hopens, ih ha]
    rfl

/-- A comment in the front cuts off a plain back; without one the back is kept. -/
theorem stripCommentFrom_append_plain {a b : List Char} (hb : IsPlain b) (literal : Bool) :
    stripCommentFrom literal (a ++ b) = stripCommentFrom literal a ∨
      stripCommentFrom literal (a ++ b) = stripCommentFrom literal a ++ b := by
  induction a generalizing literal with
  | nil =>
    have hkept := stripCommentFrom_plain_append hb literal []
    rw [List.append_nil] at hkept
    exact .inr (hkept.trans (List.append_nil b))
  | cons c a ih =>
    have hhead : ((a ++ b).head? == some '-') = (a.head? == some '-') := by
      cases a with
      | cons d a => rfl
      | nil =>
        cases b with
        | nil => rfl
        | cons d b => simp [(hb d (List.mem_cons_self ..)).2]
    rw [List.cons_append, stripCommentFrom, stripCommentFrom, hhead]
    split
    · exact (ih _).imp (congrArg (List.cons c)) (congrArg (List.cons c))
    · split
      · exact .inl rfl
      · exact (ih _).imp (congrArg (List.cons c)) (congrArg (List.cons c))

/-! ## Lines -/

/-- The code of a line: the line, or the part of it in front of two dashes. -/
def IsCodeOf (code line : List Char) : Prop :=
  code = line ∨ ∃ rest, line = code ++ '-' :: '-' :: rest ∧ code.getLast? ≠ some '-'

theorem isCodeOf_uncommented {line : List Char} (hline : '\n' ∉ line) (hm : m ≠ .comment) :
    IsCodeOf (uncommented m line) line := by
  induction line generalizing m with
  | nil => exact .inl rfl
  | cons c cs ih =>
    rw [List.mem_cons, not_or] at hline
    by_cases hnext : m.next cs c = .comment
    · rw [uncommented_cons_of_comment hnext, hnext, uncommented_comment_of_line hline.2]
      rcases next_eq_comment_iff.1 hnext with ⟨rfl, rfl, hhead⟩ | ⟨rfl, -⟩
      · obtain ⟨rest, rfl⟩ := List.head?_eq_some_iff.1 hhead
        exact .inr ⟨rest, rfl, by decide⟩
      · exact absurd rfl hm
    · rw [uncommented_cons_of_ne hnext]
      rcases ih hline.2 hnext with hsame | ⟨rest, hrest, hlast⟩
      · exact .inl (congrArg (List.cons c) hsame)
      · refine .inr ⟨rest, congrArg (List.cons c) hrest, ?_⟩
        cases hcode : uncommented (m.next cs c) cs with
        | cons d ds =>
          rw [hcode] at hlast
          rwa [List.getLast?_cons_cons]
        | nil =>
          -- Then the comment follows at once, so the mode is code and this is no dash.
          rw [hcode, List.nil_append] at hrest
          intro hdash
          obtain rfl : c = '-' := Option.some.inj hdash
          rw [hrest] at hcode hnext
          have hopens : (m.next ('-' :: '-' :: rest) '-').next ('-' :: rest) '-' = .comment := by
            by_contra hopens
            rw [uncommented_cons_of_ne hopens] at hcode
            cases hcode
          rcases next_eq_comment_iff.1 hopens with ⟨hcode, -, -⟩ | ⟨hcomment, -⟩
          · cases m with
            | code => exact hnext (next_eq_comment_iff.2 (.inl ⟨rfl, rfl, rfl⟩))
            | literal => cases hcode
            | comment => exact hm rfl
          · exact hnext hcomment

/-- Leaving comments out acts on each line, in the mode in which the line starts. -/
theorem forall₂_lines_uncommented (hm : m ≠ .comment) (t : List Char) :
    List.Forall₂ IsCodeOf (lines (uncommented m t)) (lines t) := by
  have hlines : ∀ (ps : List (List Char)) (m : Mode), m ≠ .comment → ps ≠ [] →
      (∀ p ∈ ps, '\n' ∉ p) →
      List.Forall₂ IsCodeOf (lines (uncommented m (['\n'].intercalate ps))) ps := by
    intro ps
    induction ps with
    | nil => exact fun m _ hps => absurd rfl hps
    | cons p ps ih =>
      intro m hm _ hps
      obtain ⟨hp, hps⟩ := List.forall_mem_cons.1 hps
      have hkept : '\n' ∉ uncommented m p := fun hmem => hp ((uncommented_sublist m p).mem hmem)
      cases ps with
      | nil =>
        rw [List.intercalate_singleton, lines, pieces_of_not_mem hkept]
        exact .cons (isCodeOf_uncommented hp hm) .nil
      | cons q ps =>
        have hparted : Parted p ('\n' :: ['\n'].intercalate (q :: ps)) :=
          .of_head? (by rintro c ⟨⟩; decide)
        have hnext : (m.after p).next (['\n'].intercalate (q :: ps)) '\n' ≠ .comment := by
          rw [Ne, next_eq_comment_iff]
          simp
        rw [List.intercalate_cons_cons, List.append_assoc, List.singleton_append,
          uncommented_append hparted, uncommented_cons_of_ne hnext, lines,
          pieces_append_cons hkept]
        exact .cons (isCodeOf_uncommented hp hm) (ih _ hnext (List.cons_ne_nil q ps) hps)
  have h := hlines (lines t) m hm (pieces_ne_nil _ _) fun p hp => not_mem_of_mem_pieces hp
  have hjoin : ['\n'].intercalate (lines t) = t := join_pieces '\n' t
  rwa [hjoin] at h

end Modes
end ColumnAudit.Schema
