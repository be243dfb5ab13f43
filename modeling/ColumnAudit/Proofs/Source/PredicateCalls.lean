import ColumnAudit.Proofs.Source.QueryPatterns

/-! # All predicate calls

The search for predicate calls goes on behind the one it has found. It passes over no call by that: a call
has a dot at its front and no other, so none starts inside another one (`not_predicateName_inside`). So
the rule finds the name of every call that stands anywhere in a text (`mem_predicateNames_iff`).

A call does not go over a line end either, so texts on separate lines are read each on its own
(`hasPredicate_lines_iff`).
-/

namespace ColumnAudit.Source
open Text
set_option autoImplicit false

/-! ## Calls in a text -/

/-- A predicate call from its dot to the quote behind the name. -/
def predicateCallText (operation name : String) : List Char :=
  '.' :: (operation.toList ++ '(' :: '\x27' :: (name.toList ++ ['\x27']))

/-- A text with a predicate call somewhere in it that names a column in lower-case letters and `_`. -/
def HasPredicate (t : List Char) (name : String) : Prop :=
  name ≠ "" ∧ (∀ c ∈ name.toList, ('a' ≤ c ∧ c ≤ 'z') ∨ c = '_') ∧
    ∃ operation ∈ predicateOperations, predicateCallText operation name <:+: t

theorem isColumnChar_iff_letter {c : Char} : isColumnChar c ↔ ('a' ≤ c ∧ c ≤ 'z') ∨ c = '_' := by
  have hlower : c.isLower = true ↔ 'a' ≤ c ∧ c ≤ 'z' :=
    Bool.and_eq_true_iff.trans (and_congr decide_eq_true_iff decide_eq_true_iff)
  show (c.isLower || c == '_') = true ↔ _
  rw [Bool.or_eq_true, hlower, beq_iff_eq]

theorem HasPredicate.mono {s t : List Char} {name : String} (h : HasPredicate s name) (hst : s <:+: t) :
    HasPredicate t name := by
  obtain ⟨hne, hchars, operation, hoperation, hcall⟩ := h
  exact ⟨hne, hchars, operation, hoperation, hcall.trans hst⟩

theorem hasPredicate_iff {t : List Char} {name : String} :
    HasPredicate t name ↔
      ∃ s size, '.' :: s <:+ t ∧ predicateName ('.' :: s) = some (name, size) := by
  constructor
  · rintro ⟨hne, hchars, operation, hoperation, front, rest, rfl⟩
    simp only [← isColumnChar_iff_letter] at hchars
    have hname : name.toList ≠ [] := fun h => hne (String.toList_eq_nil_iff.1 h)
    have hcall := predicateName_call hoperation hname hchars rest
    rw [String.ofList_toList] at hcall
    refine ⟨_, _, ⟨front, ?_⟩, hcall⟩
    simp [predicateCallText]
  · rintro ⟨s, size, ⟨front, rfl⟩, hs⟩
    obtain ⟨operation, hoperation, rest, hne, hchars, hcall, -⟩ := predicateName_shape hs
    simp only [isColumnChar_iff_letter] at hchars
    refine ⟨fun h => hne (by rw [h]; rfl), hchars, operation, hoperation, front, rest, ?_⟩
    rw [hcall]
    simp [predicateCallText]

/-! ## Calls inside calls -/

/-- What matches behind the dot of a predicate call starts behind that call. -/
theorem not_predicateName_inside {c : Char} {t s : List Char} {outer inner : String} {size size' : Nat}
    (houter : predicateName (c :: t) = some (outer, size))
    (hinner : predicateName s = some (inner, size')) (hs : s <:+ t) :
    size - 1 ≤ t.length - s.length := by
  obtain ⟨operation, hoperation, rest, -, hchars, ht, hsize⟩ := predicateName_shape houter
  obtain ⟨operation', -, rest', -, -, rfl, -⟩ := predicateName_shape hinner
  obtain ⟨front, rfl⟩ := hs
  have hdot : '.' ∉ operation.toList ++ '(' :: '\x27' :: outer.toList := fun hmem =>
    absurd (char_of_mem_predicateCall hoperation hchars '.' hmem) (by decide)
  have hwhole : (operation.toList ++ '(' :: '\x27' :: outer.toList) ++ '\x27' :: rest =
      front ++ '.' :: (operation'.toList ++ '(' :: '\x27' :: (inner.toList ++ '\x27' :: rest')) := by
    rw [(List.cons.inj ht).2]
    simp
  -- The inner dot lies behind the name of the outer call, and behind its quote.
  obtain ⟨gap, rfl, hgap⟩ := exists_of_not_mem_front hdot hwhole
  have hquote : gap ≠ [] := by
    rintro rfl
    exact absurd (List.cons.inj hgap).1 (by decide)
  have hpos := List.length_pos_iff.2 hquote
  have hlength := congrArg List.length ht
  simp only [List.length_append, List.length_cons] at hlength hsize ⊢
  omega

theorem mem_predicateNames_iff {t : List Char} {x : String} :
    x ∈ predicateNames t ↔ HasPredicate t x := by
  rw [predicateNames_eq_occurrences, hasPredicate_iff]
  constructor
  · intro h
    obtain ⟨s, size, hs, hfound⟩ := exists_suffix_of_mem_occurrences h
    obtain ⟨operation, -, rest, -, -, rfl, -⟩ := predicateName_shape hfound
    exact ⟨_, size, hs, hfound⟩
  · rintro ⟨s, size, hs, hfound⟩
    have hsubset := subset_occurrences_of_suffix (f := fun name : String => [name])
      (fun c t outer size s inner size' houter hinner hs hstart =>
        absurd (not_predicateName_inside houter hinner hs) (Nat.not_le.2 hstart)) hs hfound
    rw [List.flatMap_singleton'] at hsubset
    exact hsubset List.mem_cons_self

/-! ## Calls on separate lines -/

theorem newline_not_mem_predicateCallText {operation name : String}
    (hoperation : operation ∈ predicateOperations) (hname : ∀ c ∈ name.toList, isColumnChar c) :
    '\n' ∉ predicateCallText operation name := by
  have htext : predicateCallText operation name =
      '.' :: (operation.toList ++ '(' :: '\x27' :: name.toList) ++ ['\x27'] := by
    simp [predicateCallText]
  rw [htext, List.mem_append, List.mem_cons, List.mem_singleton]
  rintro ((hdot | hmem) | hquote)
  · exact absurd hdot (by decide)
  · exact absurd (char_of_mem_predicateCall hoperation hname '\n' hmem) (by decide)
  · exact absurd hquote (by decide)

theorem hasPredicate_lines_iff {a b : List Char} {x : String} :
    HasPredicate (a ++ '\n' :: b) x ↔ HasPredicate a x ∨ HasPredicate b x := by
  constructor
  · rintro ⟨hne, hchars, operation, hoperation, hcall⟩
    have hline := newline_not_mem_predicateCallText hoperation fun c hc =>
      isColumnChar_iff_letter.2 (hchars c hc)
    rcases (infix_append_cons_iff hline).1 hcall with hcall | hcall
    · exact .inl ⟨hne, hchars, operation, hoperation, hcall⟩
    · exact .inr ⟨hne, hchars, operation, hoperation, hcall⟩
  · rintro (h | h)
    · exact h.mono (List.prefix_append a _).isInfix
    · exact h.mono ⟨a ++ ['\n'], [], by simp⟩

/-- The predicate rule finds the name of every predicate call in a text and no other, and what it finds
in two texts on separate lines is what it finds in each of them. -/
theorem predicate_finds_every_call :
    (∀ (text : String) (fields : NameSet) (x : String),
      x ∈ QueryRule.predicate.addFields text fields ↔ x ∈ fields ∨ HasPredicate text.toList x) ∧
    ∀ a b : String, QueryRule.predicate.addFields (a ++ "\n" ++ b) .empty =
      (QueryRule.predicate.addFields a .empty).union (QueryRule.predicate.addFields b .empty) := by
  have hfinds : ∀ (text : String) (fields : NameSet) (x : String),
      x ∈ QueryRule.predicate.addFields text fields ↔ x ∈ fields ∨ HasPredicate text.toList x := by
    intro text fields x
    unfold QueryRule.addFields
    rw [NameSet.mem_insertMany, ← mem_predicateNames_iff]
    rfl
  refine ⟨hfinds, fun a b => NameSet.ext fun x => ?_⟩
  have hlines : (a ++ "\n" ++ b).toList = a.toList ++ '\n' :: b.toList := by simp
  rw [NameSet.mem_union, hfinds, hfinds, hfinds, hlines, hasPredicate_lines_iff]
  simp only [NameSet.not_mem_empty, false_or]

/-- Calls broken off by other calls, calls of other methods and of names with a digit, and a call that a
line end breaks off. -/
theorem predicate_finds_broken_calls :
    let text := ".gte('a_b'.lt('c.lt('c_'.eq('d').eqq('e').in('f1')"
    "c_" ∈ QueryRule.predicate.addFields text .empty ∧
      (QueryRule.predicate.addFields text .empty).toList = ["a_b", "c_", "d"] ∧
      (QueryRule.predicate.addFields (".eq('a" ++ "\n" ++ "').in('b')") .empty).toList = ["b"] := by
  intro text
  obtain ⟨hfinds, hlines⟩ := predicate_finds_every_call
  have hcall : HasPredicate text.toList "c_" := by
    refine ⟨by decide, ?_, "lt", by decide, ".gte('a_b'.lt('c".toList, ".eq('d').eqq('e').in('f1')".toList, ?_⟩
    · simp only [← isColumnChar_iff_letter]
      exact List.all_eq_true.1 (by decide +kernel)
    · decide +kernel
  refine ⟨(hfinds text .empty "c_").2 (.inr hcall), by decide +kernel, ?_⟩
  rw [hlines]
  decide +kernel

end ColumnAudit.Source
