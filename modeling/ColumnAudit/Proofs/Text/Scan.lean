import ColumnAudit.Text.Scan
import Mathlib.Data.List.Infix

/-! # Marks, breaks and searches in texts with known parts

* `behind_eq_some_iff` and `eq_of_breakOn` say what a mark and a break leave of a text.
* `breakOn_pair`: a mark of two different characters is found at its first occurrence, wherever the
  text goes on from there; no occurrence can lie across the border. What stands before it holds no
  occurrence (`not_infix_of_breakOn`).
* `occurrences_of_none` and `occurrences_of_some` take a search one pattern further. They are stated
  on the text that really follows, so that the parts of a long text can be searched one by one.
* `StartsWithDot.skip` and `StartsWithDot.skip_of_none` are about patterns that match only at a dot.
* `exists_suffix_of_mem_occurrences` gives the place of what a search finds, and
  `length_flatMap_occurrences_le` bounds all of it by the length of the text.
* `subset_occurrences_of_suffix`: a search misses nothing if matches inside matches find nothing new.
* `subset_occurrences_append`: when a text goes on, nothing that was found in it is lost, if matches
  stay matches and a new match makes up for what it swallows.
* `remainder` is the text behind the last match. If no match starts there when the text goes on, the
  search finds what is in both parts, one after the other (`occurrences_append_of_remainder`).
-/

namespace ColumnAudit.Text
set_option autoImplicit false

/-! ## Marks -/

theorem isPrefixOf?_eq_some_iff {mark t rest : List Char} :
    List.isPrefixOf? mark t = some rest ↔ t = mark ++ rest := by
  induction mark generalizing t with
  | nil => simp [List.isPrefixOf?]
  | cons m ms ih =>
    cases t with
    | nil => simp [List.isPrefixOf?]
    | cons c cs =>
      rw [List.isPrefixOf?]
      by_cases h : m = c
      · subst h
        simp [ih]
      · have h' : ¬ c = m := fun e => h e.symm
        simp [h, h']

theorem isPrefixOf?_eq_none_iff {mark t : List Char} :
    List.isPrefixOf? mark t = none ↔ ¬ mark <+: t := by
  rw [Option.eq_none_iff_forall_ne_some]
  constructor
  · rintro h ⟨rest, hrest⟩
    exact h rest (isPrefixOf?_eq_some_iff.2 hrest.symm)
  · intro h rest hrest
    exact h ⟨rest, (isPrefixOf?_eq_some_iff.1 hrest).symm⟩

theorem behind_eq_some_iff {mark : String} {t rest : List Char} :
    behind mark t = some rest ↔ t = mark.toList ++ rest := isPrefixOf?_eq_some_iff

theorem behind_eq_none_iff {mark : String} {t : List Char} :
    behind mark t = none ↔ ¬ mark.toList <+: t := isPrefixOf?_eq_none_iff

theorem behind_append (mark : String) (rest : List Char) :
    behind mark (mark.toList ++ rest) = some rest := behind_eq_some_iff.2 rfl

/-- A mark whose first character does not come again in it cannot start in a text and end in what
that same character goes on with. -/
theorem prefix_of_prefix_append_cons {m : Char} {ms s b : List Char} (hm : m ∉ ms)
    (h : ms <+: s ++ m :: b) : ms <+: s := by
  induction s generalizing ms with
  | nil =>
    cases ms with
    | nil => exact List.nil_prefix
    | cons x ms =>
      rw [List.nil_append, List.cons_prefix_cons] at h
      exact absurd (by simp [h.1]) hm
  | cons y s ih =>
    cases ms with
    | nil => exact List.nil_prefix
    | cons x ms =>
      rw [List.cons_append, List.cons_prefix_cons] at h
      rw [List.cons_prefix_cons]
      exact ⟨h.1, ih (fun hmem => hm (List.mem_cons_of_mem _ hmem)) h.2⟩

/-! ## Breaks -/

theorem eq_of_breakOn {mark t before after : List Char}
    (h : breakOn mark t = some (before, after)) : t = before ++ (mark ++ after) := by
  induction t generalizing before with
  | nil =>
    simp only [breakOn] at h
    split at h
    · rename_i hmark
      simp only [Option.some.injEq, Prod.mk.injEq] at h
      simp [hmark, ← h.1, ← h.2]
    · cases h
  | cons c cs ih =>
    rw [breakOn] at h
    cases hp : List.isPrefixOf? mark (c :: cs) with
    | some rest =>
      rw [hp] at h
      simp only [Option.some.injEq, Prod.mk.injEq] at h
      rw [← h.1, ← h.2, List.nil_append]
      exact isPrefixOf?_eq_some_iff.1 hp
    | none =>
      rw [hp] at h
      obtain ⟨⟨before', after'⟩, hbreak, heq⟩ := Option.map_eq_some_iff.1 h
      simp only [Prod.mk.injEq] at heq
      obtain ⟨rfl, rfl⟩ := heq
      rw [ih hbreak, List.cons_append]

theorem breakOn_pair {x y : Char} (hxy : x ≠ y) {before : List Char} (h : ¬ [x, y] <:+: before)
    (after : List Char) : breakOn [x, y] (before ++ x :: y :: after) = some (before, after) := by
  induction before with
  | nil => simp [breakOn, List.isPrefixOf?]
  | cons c before ih =>
    have hnot : ¬ [x, y] <+: c :: (before ++ x :: y :: after) := by
      intro hp
      obtain ⟨rfl, hy⟩ := List.cons_prefix_cons.1 hp
      cases before with
      | nil => exact hxy (List.cons_prefix_cons.1 hy).1.symm
      | cons d before =>
        obtain ⟨rfl, -⟩ := List.cons_prefix_cons.1 hy
        exact h (List.IsPrefix.isInfix ⟨before, rfl⟩)
    have hrest : ¬ [x, y] <:+: before := fun hi => h (List.infix_cons hi)
    rw [List.cons_append, breakOn, isPrefixOf?_eq_none_iff.2 hnot, ih hrest]
    rfl

theorem not_infix_of_breakOn {x y : Char} {t before after : List Char}
    (h : breakOn [x, y] t = some (before, after)) : ¬ [x, y] <:+: before := by
  induction t generalizing before with
  | nil => cases h
  | cons c cs ih =>
    rw [breakOn] at h
    cases hp : List.isPrefixOf? [x, y] (c :: cs) with
    | some rest =>
      rw [hp] at h
      simp only [Option.some.injEq, Prod.mk.injEq] at h
      rw [← h.1]
      simp
    | none =>
      rw [hp] at h
      obtain ⟨⟨before', after'⟩, hbreak, heq⟩ := Option.map_eq_some_iff.1 h
      simp only [Prod.mk.injEq] at heq
      obtain ⟨rfl, rfl⟩ := heq
      intro hinfix
      rcases List.infix_cons_iff.1 hinfix with hfront | hinfix
      · refine isPrefixOf?_eq_none_iff.1 hp (hfront.trans ?_)
        rw [eq_of_breakOn hbreak, ← List.cons_append]
        exact List.prefix_append _ _
      · exact ih hbreak hinfix

theorem breakOn_pair_eq_some_iff {x y : Char} (hxy : x ≠ y) {t before after : List Char} :
    breakOn [x, y] t = some (before, after) ↔
      ¬ [x, y] <:+: before ∧ t = before ++ x :: y :: after := by
  constructor
  · intro h
    exact ⟨not_infix_of_breakOn h, eq_of_breakOn h⟩
  · rintro ⟨h, rfl⟩
    exact breakOn_pair hxy h after

/-- The first occurrence of a pair of characters is at one place. -/
theorem eq_of_first_pair {x y : Char} (hxy : x ≠ y) {before before' after after' : List Char}
    (h : ¬ [x, y] <:+: before) (h' : ¬ [x, y] <:+: before')
    (heq : before ++ x :: y :: after = before' ++ x :: y :: after') :
    before = before' ∧ after = after' := by
  have hbreak := breakOn_pair hxy h after
  rw [heq, breakOn_pair hxy h' after'] at hbreak
  obtain ⟨hbefore, hafter⟩ := Prod.mk.inj (Option.some.inj hbreak)
  exact ⟨hbefore.symm, hafter.symm⟩

/-- A text that holds a pair of characters goes up to the first one. -/
theorem exists_first_pair {x y : Char} {t : List Char} (h : [x, y] <:+: t) :
    ∃ before after, ¬ [x, y] <:+: before ∧ t = before ++ x :: y :: after := by
  induction t with
  | nil => cases List.infix_nil.1 h
  | cons c t ih =>
    by_cases hfront : [x, y] <+: c :: t
    · obtain ⟨after, hafter⟩ := hfront
      exact ⟨[], after, by simp, hafter.symm⟩
    · obtain hstart | hlater := List.infix_cons_iff.1 h
      · exact absurd hstart hfront
      obtain ⟨before, after, hbefore, rfl⟩ := ih hlater
      refine ⟨c :: before, after, fun hpair => ?_, rfl⟩
      obtain hstart | hlater := List.infix_cons_iff.1 hpair
      · exact hfront (hstart.trans (List.prefix_append (c :: before) _))
      · exact hbefore hlater

/-! ## Infixes of texts with known parts -/

section Infixes
variable {c d : Char} {m a b : List Char}

/-- What starts with a character that a text does not hold lies behind that text. -/
theorem infix_of_infix_append (hc : c ∉ a) (h : c :: m <:+: a ++ b) : c :: m <:+: b := by
  induction a with
  | nil => exact h
  | cons x a ih =>
    rw [List.mem_cons, not_or] at hc
    rcases List.infix_cons_iff.1 h with hfront | h
    · exact absurd (List.cons_prefix_cons.1 hfront).1 hc.1
    · exact ih hc.2 h

/-- What ends with another character than the last lies before that last one. -/
theorem infix_of_infix_concat (hcd : c ≠ d) (h : m ++ [c] <:+: a ++ [d]) : m ++ [c] <:+: a := by
  have hreverse : c :: m.reverse <:+: [d] ++ a.reverse := by
    have := List.reverse_infix.2 h
    simpa using this
  have hback := infix_of_infix_append (by simpa using hcd) hreverse
  rw [← List.reverse_infix]
  simpa using hback

/-- If what goes on behind a text brings it past a character, then the text reaches that character by
itself or ends before it. -/
theorem prefix_or_reaches {t s : List Char} (h : t ++ s = a ++ c :: b) :
    t <+: a ∨ ∃ b', t = a ++ c :: b' ∧ b = b' ++ s := by
  rcases List.append_eq_append_iff.1 h with ⟨a', ha, -⟩ | ⟨t', ht, hs⟩
  · exact .inl ⟨a', ha.symm⟩
  · cases t' with
    | nil => exact .inl (by rw [ht, List.append_nil])
    | cons x t' =>
      rw [List.cons_append, List.cons.injEq] at hs
      exact .inr ⟨t', by rw [ht, hs.1], hs.2⟩

/-- A character that the front of a text does not hold lies in its back. -/
theorem exists_of_not_mem_front {t s : List Char} (hc : c ∉ t) (h : t ++ s = a ++ c :: b) :
    ∃ a', a = t ++ a' ∧ s = a' ++ c :: b := by
  rcases prefix_or_reaches h with ⟨a', rfl⟩ | ⟨b', rfl, -⟩
  · rw [List.append_assoc] at h
    exact ⟨a', rfl, List.append_cancel_left h⟩
  · exact absurd (by simp) hc

/-- A character that the back of a text does not hold lies in its front. -/
theorem exists_of_not_mem_back {t s : List Char} (hc : c ∉ s) (h : t ++ s = a ++ c :: b) :
    ∃ b', t = a ++ c :: b' ∧ b = b' ++ s := by
  rcases prefix_or_reaches h with ⟨a', rfl⟩ | hreaches
  · rw [List.append_assoc] at h
    rw [List.append_cancel_left h] at hc
    exact absurd (by simp) hc
  · exact hreaches

/-- What does not hold a character lies on one side of it. -/
theorem infix_append_cons_iff (hc : c ∉ m) : m <:+: a ++ c :: b ↔ m <:+: a ∨ m <:+: b := by
  constructor
  · rintro ⟨u, v, h⟩
    rcases prefix_or_reaches h with hfront | ⟨b', hreaches, rfl⟩
    · exact .inl ((List.suffix_append u m).isInfix.trans hfront.isInfix)
    · obtain ⟨b'', -, rfl⟩ := exists_of_not_mem_back hc hreaches
      exact .inr ⟨b'', v, rfl⟩
  · rintro (h | h)
    · exact h.trans (List.prefix_append a (c :: b)).isInfix
    · exact h.trans ⟨a ++ [c], [], by simp⟩

theorem pair_infix_append_cons {x y : Char} (hx : c ≠ x) (hy : c ≠ y) (h : [x, y] <:+: a ++ c :: b) :
    [x, y] <:+: a ∨ [x, y] <:+: b :=
  (infix_append_cons_iff (by simp [hx, hy])).1 h

end Infixes

/-! ## Searches -/

section Searches
variable {α : Type} {p : List Char → Option (α × Nat)}

theorem occurrencesFrom_drop (skip : Nat) (t : List Char) :
    occurrencesFrom p skip t = occurrences p (t.drop skip) := by
  induction t generalizing skip with
  | nil => cases skip <;> simp [occurrences, occurrencesFrom]
  | cons c t ih =>
    cases skip with
    | zero => rfl
    | succ skip => rw [occurrencesFrom, ih, List.drop_succ_cons]

theorem map_occurrences {β : Type} (f : α → β) (p : List Char → Option (α × Nat)) (t : List Char) :
    (occurrences p t).map f = occurrences (fun s => (p s).map fun (a, size) => (f a, size)) t := by
  have hfrom : ∀ skip, (occurrencesFrom p skip t).map f =
      occurrencesFrom (fun s => (p s).map fun (a, size) => (f a, size)) skip t := by
    induction t with
    | nil => intro skip; cases skip <;> rfl
    | cons c t ih =>
      intro skip
      cases skip with
      | succ skip => exact ih skip
      | zero =>
        rw [occurrencesFrom, occurrencesFrom]
        cases p (c :: t) with
        | none => exact ih 0
        | some found => exact congrArg (List.cons (f found.1)) (ih (found.2 - 1))
  exact hfrom 0

theorem occurrences_of_none {c : Char} {t : List Char} (h : p (c :: t) = none) :
    occurrences p (c :: t) = occurrences p t := by
  simp only [occurrences, occurrencesFrom, h]

theorem occurrences_of_some {c : Char} {t : List Char} {a : α} {size : Nat}
    (h : p (c :: t) = some (a, size)) :
    occurrences p (c :: t) = a :: occurrences p (t.drop (size - 1)) := by
  rw [← occurrencesFrom_drop]
  simp only [occurrences, occurrencesFrom, h]

theorem mem_occurrences_of_some {c : Char} {t : List Char} {a : α} {size : Nat}
    (h : p (c :: t) = some (a, size)) : a ∈ occurrences p (c :: t) := by
  rw [occurrences_of_some h]
  exact List.mem_cons_self

/-- A search passes over a stretch in which the pattern matches nowhere, given what comes behind. -/
theorem occurrences_append_of_none {a b : List Char}
    (h : ∀ s, s ≠ [] → s <:+ a → p (s ++ b) = none) :
    occurrences p (a ++ b) = occurrences p b := by
  induction a with
  | nil => rfl
  | cons c a ih =>
    have hfront : p (c :: (a ++ b)) = none := h (c :: a) (by simp) List.suffix_rfl
    rw [List.cons_append, occurrences_of_none hfront]
    exact ih fun s hs hsuffix => h s hs (hsuffix.trans (List.suffix_cons c a))

/-- Where the pattern takes up a whole stretch, the search goes on behind it. -/
theorem occurrences_append_of_some {a b : List Char} {x : α} (ha : a ≠ [])
    (h : p (a ++ b) = some (x, a.length)) : occurrences p (a ++ b) = x :: occurrences p b := by
  cases a with
  | nil => exact absurd rfl ha
  | cons c a =>
    rw [List.cons_append] at h ⊢
    rw [occurrences_of_some h]
    simp

/-- A pattern that matches only at a dot. -/
def StartsWithDot (p : List Char → Option (α × Nat)) : Prop :=
  ∀ c t, c ≠ '.' → p (c :: t) = none

theorem StartsWithDot.skip (hp : StartsWithDot p) {a : List Char} (ha : '.' ∉ a) (b : List Char) :
    occurrences p (a ++ b) = occurrences p b := by
  refine occurrences_append_of_none fun s hs hsuffix => ?_
  cases s with
  | nil => exact absurd rfl hs
  | cons c s =>
    refine hp c (s ++ b) fun hc => ha ?_
    exact hsuffix.subset (by simp [hc])

/-- A search passes over a stretch whose only dot is at its front, if the pattern does not match
there. -/
theorem StartsWithDot.skip_of_none (hp : StartsWithDot p) {a b : List Char} (ha : '.' ∉ a)
    (h : p ('.' :: (a ++ b)) = none) : occurrences p ('.' :: (a ++ b)) = occurrences p b := by
  rw [occurrences_of_none h, hp.skip ha]

/-- What is found is found at some place of the text. -/
theorem exists_suffix_of_mem_occurrences {t : List Char} {a : α} (h : a ∈ occurrences p t) :
    ∃ s size, s <:+ t ∧ p s = some (a, size) := by
  have hfrom : ∀ t skip, a ∈ occurrencesFrom p skip t → ∃ s size, s <:+ t ∧ p s = some (a, size) := by
    intro t
    induction t with
    | nil => intro skip h; cases skip <;> simp [occurrencesFrom] at h
    | cons c t ih =>
      have hlater : ∀ skip, a ∈ occurrencesFrom p skip t →
          ∃ s size, s <:+ c :: t ∧ p s = some (a, size) := by
        intro skip h
        obtain ⟨s, size, hs, hp⟩ := ih skip h
        exact ⟨s, size, hs.trans (List.suffix_cons c t), hp⟩
      intro skip h
      cases skip with
      | succ skip => exact hlater skip h
      | zero =>
        rw [occurrencesFrom] at h
        cases hp : p (c :: t) with
        | none =>
          rw [hp] at h
          exact hlater 0 h
        | some found =>
          rw [hp] at h
          rcases List.mem_cons.1 h with rfl | h
          · exact ⟨c :: t, found.2, List.suffix_rfl, hp⟩
          · exact hlater _ h
  exact hfrom t 0 h

/-- A search misses nothing, if a match that starts inside another one finds no more than that one. -/
theorem subset_occurrences_of_suffix {β : Type} {f : α → List β}
    (hinside : ∀ c t a size s b size', p (c :: t) = some (a, size) → p s = some (b, size') → s <:+ t →
      t.length - s.length < size - 1 → f b ⊆ f a)
    {d : Char} {s t : List Char} {b : α} {size' : Nat} (hs : d :: s <:+ t)
    (h : p (d :: s) = some (b, size')) : f b ⊆ (occurrences p t).flatMap f := by
  induction hn : t.length using Nat.strong_induction_on generalizing t with
  | _ n ih =>
    cases t with
    | nil => cases List.suffix_nil.1 hs
    | cons c t =>
      rw [List.length_cons] at hn
      rcases List.suffix_cons_iff.1 hs with heq | hs
      · rw [← heq, occurrences_of_some h, List.flatMap_cons]
        exact List.subset_append_left _ _
      cases hp : p (c :: t) with
      | none =>
        rw [occurrences_of_none hp]
        exact ih t.length (by omega) hs rfl
      | some found =>
        obtain ⟨a, size⟩ := found
        rw [occurrences_of_some hp, List.flatMap_cons]
        by_cases hstart : t.length - (d :: s).length < size - 1
        · exact List.subset_append_of_subset_left _ (hinside c t a size _ b size' hp h hs hstart)
        · have hlength := hs.length_le
          have hlater : d :: s <:+ t.drop (size - 1) := by
            apply List.suffix_of_suffix_length_le hs (List.drop_suffix _ t)
            rw [List.length_drop]
            omega
          apply List.subset_append_of_subset_right
          exact ih (t.drop (size - 1)).length (by rw [List.length_drop]; omega) hlater rfl

/-- What a search finds is no more than the text has characters, if that holds of each match. -/
theorem length_flatMap_occurrences_le {β : Type} {f : α → List β}
    (h : ∀ t a size, p t = some (a, size) → (f a).length ≤ size ∧ size ≤ t.length)
    (t : List Char) : ((occurrences p t).flatMap f).length ≤ t.length := by
  have hfrom : ∀ t skip, ((occurrencesFrom p skip t).flatMap f).length ≤ t.length - skip := by
    intro t
    induction t with
    | nil => intro skip; cases skip <;> simp [occurrencesFrom]
    | cons c t ih =>
      intro skip
      cases skip with
      | succ skip =>
        have := ih skip
        rw [occurrencesFrom, List.length_cons]
        omega
      | zero =>
        rw [occurrencesFrom]
        cases hp : p (c :: t) with
        | none =>
          have := ih 0
          simp only [List.length_cons]
          omega
        | some found =>
          obtain ⟨a, size⟩ := found
          obtain ⟨hfound, hsize⟩ := h _ _ _ hp
          have := ih (size - 1)
          simp only [List.flatMap_cons, List.length_append, List.length_cons] at hsize ⊢
          omega
  exact hfrom t 0

/-- A pattern whose matches stay matches when the text goes on. -/
def Stable (p : List Char → Option (α × Nat)) : Prop :=
  ∀ t a size, p t = some (a, size) → size ≤ t.length ∧ ∀ b, p (t ++ b) = some (a, size)

/-- When a text goes on, nothing that was found in it is lost. A match that needs the new text takes up
all of the old text from its place on, so it has to make up for what was found there. -/
theorem subset_occurrences_append {β : Type} {f : α → List β}
    (hstable : Stable p)
    (hcover : ∀ t b a size, p t = none → p (t ++ b) = some (a, size) →
      (occurrences p t).flatMap f ⊆ f a)
    (t b : List Char) : (occurrences p t).flatMap f ⊆ (occurrences p (t ++ b)).flatMap f := by
  induction hn : t.length using Nat.strong_induction_on generalizing t with
  | _ n ih =>
    cases t with
    | nil => simp [occurrences, occurrencesFrom]
    | cons c t =>
      rw [List.length_cons] at hn
      cases hp : p (c :: t) with
      | some found =>
        obtain ⟨a, size⟩ := found
        obtain ⟨hsize, hlonger⟩ := hstable _ _ _ hp
        rw [List.length_cons] at hsize
        have hboth : p (c :: (t ++ b)) = some (a, size) := hlonger b
        have hdrop : (t ++ b).drop (size - 1) = t.drop (size - 1) ++ b :=
          List.drop_append_of_le_length (by omega)
        have hrest := ih (t.drop (size - 1)).length (by rw [List.length_drop]; omega) _ rfl
        rw [List.cons_append, occurrences_of_some hp, occurrences_of_some hboth, hdrop,
          List.flatMap_cons, List.flatMap_cons]
        exact List.append_subset.2 ⟨List.subset_append_left _ _,
          List.Subset.trans hrest (List.subset_append_right _ _)⟩
      | none =>
        cases hq : p (c :: t ++ b) with
        | none =>
          rw [List.cons_append] at hq ⊢
          rw [occurrences_of_none hp, occurrences_of_none hq]
          exact ih t.length (by omega) t rfl
        | some found =>
          obtain ⟨a, size⟩ := found
          have hcovered := hcover _ b a size hp hq
          rw [List.cons_append] at hq ⊢
          rw [occurrences_of_some hq, List.flatMap_cons]
          exact List.Subset.trans hcovered (List.subset_append_left _ _)

end Searches

/-! ## What a search leaves -/

section Remainders
variable {α : Type} {p : List Char → Option (α × Nat)} {c : Char} {t b : List Char}

/-- What stands behind each match, in order. -/
def textsBehind (p : List Char → Option (α × Nat)) (t : List Char) : List (List Char) :=
  occurrences (fun s => (p s).map fun (_, size) => (s.drop size, size)) t

/-- The text behind the last match, the whole text if there is none. -/
def remainder (p : List Char → Option (α × Nat)) (t : List Char) : List Char :=
  (textsBehind p t).getLastD t

theorem textsBehind_of_none (h : p (c :: t) = none) : textsBehind p (c :: t) = textsBehind p t :=
  occurrences_of_none (by rw [h]; rfl)

theorem textsBehind_of_some {a : α} {size : Nat} (h : p (c :: t) = some (a, size)) :
    textsBehind p (c :: t) = (c :: t).drop size :: textsBehind p (t.drop (size - 1)) :=
  occurrences_of_some (by rw [h]; rfl)

theorem textsBehind_eq_nil_iff : textsBehind p t = [] ↔ occurrences p t = [] := by
  induction t with
  | nil => exact iff_of_true rfl rfl
  | cons c t ih =>
    cases hp : p (c :: t) with
    | none => rw [textsBehind_of_none hp, occurrences_of_none hp, ih]
    | some found => simp [textsBehind_of_some hp, occurrences_of_some hp]

theorem remainder_of_nil (h : occurrences p t = []) : remainder p t = t := by
  rw [remainder, textsBehind_eq_nil_iff.2 h]
  rfl

theorem remainder_of_none (h : p (c :: t) = none) (hlater : occurrences p t ≠ []) :
    remainder p (c :: t) = remainder p t := by
  rw [remainder, remainder, textsBehind_of_none h]
  cases hbehind : textsBehind p t with
  | nil => exact absurd (textsBehind_eq_nil_iff.1 hbehind) hlater
  | cons s ss => rw [List.getLastD_cons, List.getLastD_cons]

theorem remainder_of_some {a : α} {size : Nat} (h : p (c :: t) = some (a, size)) (hsize : 0 < size) :
    remainder p (c :: t) = remainder p (t.drop (size - 1)) := by
  have hbehind : (c :: t).drop size = t.drop (size - 1) := by
    cases size with
    | zero => cases hsize
    | succ size => rfl
  rw [remainder, textsBehind_of_some h, List.getLastD_cons, hbehind, remainder]

theorem remainder_suffix : remainder p t <:+ t := by
  have hmem : remainder p t ∈ t :: textsBehind p t := List.getLastD_mem_cons
  rcases List.mem_cons.1 hmem with hwhole | hbehind
  · rw [hwhole]
  · obtain ⟨s, size, hs, hrest⟩ := exists_suffix_of_mem_occurrences hbehind
    obtain ⟨found, -, heq⟩ := Option.map_eq_some_iff.1 hrest
    rw [← (Prod.mk.inj heq).1]
    exact (List.drop_suffix _ s).trans hs

/-- When a text goes on, the search finds what is in both parts, if nothing is found behind a match that
the new part completes, and no match starts behind the last one of the old part. -/
theorem occurrences_append_of_remainder
    (hstable : Stable p) (hpos : ∀ t a size, p t = some (a, size) → 0 < size)
    (hopen : ∀ t, p t = none → p (t ++ b) ≠ none → occurrences p t = [])
    (hrest : ∀ s, s ≠ [] → s <:+ remainder p t → p (s ++ b) = none) :
    occurrences p (t ++ b) = occurrences p t ++ occurrences p b := by
  induction hn : t.length using Nat.strong_induction_on generalizing t with
  | _ n ih =>
    subst hn
    cases t with
    | nil => rfl
    | cons c t =>
      cases hp : p (c :: t) with
      | some found =>
        obtain ⟨a, size⟩ := found
        obtain ⟨hsize, hlonger⟩ := hstable _ _ _ hp
        rw [List.length_cons] at hsize
        have hboth : p (c :: (t ++ b)) = some (a, size) := hlonger b
        have hdrop : (t ++ b).drop (size - 1) = t.drop (size - 1) ++ b :=
          List.drop_append_of_le_length (by omega)
        rw [remainder_of_some hp (hpos _ _ _ hp)] at hrest
        rw [List.cons_append, occurrences_of_some hp, occurrences_of_some hboth, hdrop,
          ih _ (by rw [List.length_drop, List.length_cons]; omega) hrest rfl, List.cons_append]
      | none =>
        by_cases hlater : occurrences p t = []
        · have hnone : occurrences p (c :: t) = [] := (occurrences_of_none hp).trans hlater
          rw [remainder_of_nil hnone] at hrest
          rw [occurrences_append_of_none hrest, hnone, List.nil_append]
        · have hlonger : p (c :: (t ++ b)) = none := by
            by_contra hfound
            exact hlater ((occurrences_of_none hp).symm.trans (hopen _ hp hfound))
          rw [remainder_of_none hp hlater] at hrest
          rw [List.cons_append, occurrences_of_none hp, occurrences_of_none hlonger]
          exact ih t.length (by simp) hrest rfl

end Remainders
end ColumnAudit.Text
