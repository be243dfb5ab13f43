import ColumnAudit.Proofs.Text.Pattern
import ColumnAudit.Proofs.Text.Scan

/-! # Which match is tried first

The order in which matches are tried matters where what comes behind a repetition succeeds at more than
one of its ends. As many characters of a class as possible, with nothing else to come, are the whole
stretch of them (`attempt_starOne`). As few characters as possible with a mark behind them go up to the
first occurrence of the mark (`attempt_few_any_literal`).

A search whose matches do not depend on what stands before them is a search with a function on texts
(`searchFrom_eq_occurrencesFrom`).
-/

namespace ColumnAudit.Text
set_option autoImplicit false

variable {α : Type}

theorem Place.after_cons (s : Place) (c : Char) (word rest middle : List Char) :
    (s.after [c] middle).after word rest = s.after (c :: word) rest :=
  after_after s [c] word rest middle

namespace Pattern

theorem attempt_literal (mark : List Char) (s : Place) (next : Place → Option α) :
    (literal mark).attempt s next =
      (List.isPrefixOf? mark s.behind).bind fun rest => next (s.after mark rest) := by
  induction mark generalizing s with
  | nil => rfl
  | cons m mark ih =>
    obtain ⟨previous, behind, taken⟩ := s
    cases behind with
    | nil => rfl
    | cons c cs =>
      rw [literal, attempt, attempt, List.isPrefixOf?]
      by_cases hc : c = m
      · subst hc
        rw [if_pos (beq_self_eq_true c), if_pos (beq_self_eq_true c), ih]
        refine congrArg (Option.bind _) (funext fun rest => ?_)
        rw [← Place.after_cons ⟨previous, c :: cs, taken⟩ c mark rest cs]
        rfl
      · have hmc : ¬ (m == c) = true := fun h => hc (beq_iff_eq.1 h).symm
        rw [if_neg (mt beq_iff_eq.1 hc), if_neg hmc]
        rfl

/-! ## Repetitions -/

theorem attempt_starOne_cons (p : Char → Bool) (previous : Option Char) (c : Char) (cs : List Char)
    (taken : Nat) (next : Place → Option α) :
    (star (one p)).attempt ⟨previous, c :: cs, taken⟩ next =
      (if p c then (star (one p)).attempt ⟨some c, cs, taken + 1⟩ next else none).or
        (next ⟨previous, c :: cs, taken⟩) := rfl

theorem attempt_few_any_cons (previous : Option Char) (c : Char) (cs : List Char) (taken : Nat)
    (next : Place → Option α) :
    (few any).attempt ⟨previous, c :: cs, taken⟩ next =
      (next ⟨previous, c :: cs, taken⟩).or ((few any).attempt ⟨some c, cs, taken + 1⟩ next) := rfl

/-- As many characters of a class as there are, if nothing else has to come. -/
theorem attempt_starOne (p : Char → Bool) (s : Place) (made : Place → α) :
    (star (one p)).attempt s (fun e => some (made e)) =
      some (made (s.after (s.behind.takeWhile p) (s.behind.dropWhile p))) := by
  obtain ⟨previous, behind, taken⟩ := s
  induction behind generalizing previous taken with
  | nil => rfl
  | cons c cs ih =>
    rw [attempt_starOne_cons]
    dsimp only
    cases hc : p c with
    | false =>
      rw [if_neg Bool.false_ne_true, List.takeWhile_cons_of_neg (by simp [hc]),
        List.dropWhile_cons_of_neg (by simp [hc])]
      rfl
    | true =>
      rw [if_pos rfl, ih, List.takeWhile_cons_of_pos hc, List.dropWhile_cons_of_pos hc, Option.some_or,
        ← Place.after_cons ⟨previous, c :: cs, taken⟩ c (cs.takeWhile p) (cs.dropWhile p) cs]
      rfl

/-- As few characters as possible go up to the first occurrence of the mark that has to come. -/
theorem attempt_few_any_literal (mark : List Char) (s : Place) (made : Place → Place → α) :
    (few any).attempt s (fun closed => (literal mark).attempt closed fun e => some (made closed e)) =
      (breakOn mark s.behind).map fun (inside, rest) =>
        made (s.after inside (mark ++ rest)) (s.after (inside ++ mark) rest) := by
  obtain ⟨previous, behind, taken⟩ := s
  induction behind generalizing previous taken with
  | nil =>
    cases mark with
    | nil => rfl
    | cons m mark => rfl
  | cons c cs ih =>
    rw [attempt_few_any_cons, ih, attempt_literal, breakOn]
    dsimp only
    cases hmark : List.isPrefixOf? mark (c :: cs) with
    | some rest =>
      have hbehind : c :: cs = mark ++ rest := isPrefixOf?_eq_some_iff.1 hmark
      rw [Option.bind_some, Option.some_or, Option.map_some, List.nil_append, ← hbehind]
      rfl
    | none =>
      rw [Option.bind_none, Option.none_or, Option.map_map]
      refine congrArg (Option.map · (breakOn mark cs)) (funext fun found => ?_)
      obtain ⟨inside, rest⟩ := found
      have hafter : ∀ w r, Place.after ⟨some c, cs, taken + 1⟩ w r =
          Place.after ⟨previous, c :: cs, taken⟩ (c :: w) r :=
        fun w r => Place.after_cons ⟨previous, c :: cs, taken⟩ c w r cs
      show made _ _ = made _ _
      rw [hafter, hafter, List.cons_append]

end Pattern

/-- A group of as few characters as possible with a mark behind it that has two different characters. -/
theorem Grouped.attempt_upTo_eq_some_iff {x y : Char} (hxy : x ≠ y) {s : Place} {inside : List Char}
    {size : Nat} :
    (Grouped.trail (.group (.few .any)) (.literal [x, y])).attempt s (fun m => some m.found) =
        some (inside, size) ↔
      ∃ rest, ¬ [x, y] <:+: inside ∧ s.behind = inside ++ x :: y :: rest ∧
        size = s.taken + inside.length + 2 := by
  have hattempt : (Grouped.trail (.group (.few .any)) (.literal [x, y])).attempt s (fun m => some m.found) =
      (breakOn [x, y] s.behind).map fun (inside, rest) =>
        Match.found ⟨s, s.after inside ([x, y] ++ rest), s.after (inside ++ [x, y]) rest⟩ :=
    Pattern.attempt_few_any_literal [x, y] s fun closed e => Match.found ⟨s, closed, e⟩
  have hfound : ∀ inside rest, s.behind = inside ++ x :: y :: rest →
      Match.found ⟨s, s.after inside ([x, y] ++ rest), s.after (inside ++ [x, y]) rest⟩ =
        (inside, s.taken + inside.length + 2) := by
    intro inside rest hs
    have hfound := Match.found_after (w := inside) (r := [x, y] ++ rest) hs
      (s.after (inside ++ [x, y]) rest)
    rw [hfound, Place.taken_after, List.length_append, ← Nat.add_assoc]
    rfl
  rw [hattempt, Option.map_eq_some_iff]
  constructor
  · rintro ⟨⟨inside', rest⟩, hbreak, h⟩
    obtain ⟨hmark, hs⟩ := (breakOn_pair_eq_some_iff hxy).1 hbreak
    obtain ⟨rfl, rfl⟩ := Prod.mk.inj ((hfound inside' rest hs).symm.trans h)
    exact ⟨rest, hmark, hs, rfl⟩
  · rintro ⟨rest, hmark, hs, rfl⟩
    exact ⟨(inside, rest), (breakOn_pair_eq_some_iff hxy).2 ⟨hmark, hs⟩, hfound inside rest hs⟩

/-! ## Searches -/

theorem searchFrom_eq_occurrencesFrom {first? : Option Char → List Char → Option (α × Nat)}
    {f : List Char → Option (α × Nat)} (h : ∀ previous t, first? previous t = f t) (skip : Nat)
    (previous : Option Char) (t : List Char) :
    searchFrom first? skip previous t = occurrencesFrom f skip t := by
  induction t generalizing skip previous with
  | nil => cases skip <;> rfl
  | cons c t ih =>
    cases skip with
    | succ skip => exact ih skip (some c)
    | zero =>
      rw [searchFrom, occurrencesFrom, h]
      cases f (c :: t) with
      | none => exact ih 0 (some c)
      | some found => exact congrArg (List.cons found.1) (ih (found.2 - 1) (some c))

end ColumnAudit.Text
