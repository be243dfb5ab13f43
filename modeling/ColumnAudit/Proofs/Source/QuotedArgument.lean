import ColumnAudit.Proofs.Source.LongerText

/-! # Quoted arguments of select calls

The argument of a select call goes from its first quote to the next one of that kind, if a parenthesis
closes the call there (`quotedArgument`). The search for select lists goes on to a quote with a
parenthesis behind it instead, so a call with further arguments is taken to end in a later one.

Where every select list that is found is such an argument, and every call that starts inside a found one
also ends there (`CallsApart`), the search finds the names in all quoted arguments and no other
(`mem_projection_iff_of_callsApart`).
-/

namespace ColumnAudit.Source
open Text
set_option autoImplicit false

/-! ## Arguments -/

/-- The quoted argument of a select call at the front of a text, and the size of the call. -/
def quotedArgument (t : List Char) : Option (List Char × Nat) := do
  match ← behind ".select(" t with
  | [] => none
  | quote :: inside =>
    let argument := inside.takeWhile (· != quote)
    if isQuote quote && [quote, ')'].isPrefixOf (inside.dropWhile (· != quote)) then
      some (argument, argument.length + 11)
    else none

/-- A text with the quoted argument of a select call somewhere in it. -/
def HasArgument (t argument : List Char) : Prop :=
  ∃ quote front rest, isQuote quote ∧ quote ∉ argument ∧
    t = front ++ (".select(".toList ++ quote :: (argument ++ quote :: ')' :: rest))

theorem quotedArgument_eq_some_iff {t argument : List Char} {size : Nat} :
    quotedArgument t = some (argument, size) ↔
      ∃ quote rest, isQuote quote ∧ quote ∉ argument ∧
        t = ".select(".toList ++ quote :: (argument ++ quote :: ')' :: rest) ∧
        size = argument.length + 11 := by
  constructor
  · intro h
    unfold quotedArgument at h
    obtain ⟨opened, hopened, h⟩ := Option.bind_eq_some_iff.1 h
    cases opened with
    | nil => cases h
    | cons quote inside =>
      dsimp only at h
      split at h
      · rename_i hcall
        obtain ⟨hquote, hclose⟩ := (Bool.and_eq_true _ _).mp hcall
        obtain ⟨rest, hrest⟩ := List.isPrefixOf_iff_prefix.1 hclose
        simp only [Option.some.injEq, Prod.mk.injEq] at h
        obtain ⟨rfl, rfl⟩ := h
        refine ⟨quote, rest, hquote, fun hmem => ?_, ?_, rfl⟩
        · have hne := List.mem_takeWhile_imp hmem
          simp at hne
        · have hinside : inside = inside.takeWhile (· != quote) ++ ([quote, ')'] ++ rest) := by
            rw [hrest, List.takeWhile_append_dropWhile]
          rw [behind_eq_some_iff.1 hopened]
          exact congrArg (fun s => ".select(".toList ++ quote :: s) hinside
      · cases h
  · rintro ⟨quote, rest, hquote, hnot, rfl, rfl⟩
    have hends := takeWhile_dropWhile_append (p := (· != quote)) (a := argument)
      (b := quote :: ')' :: rest)
      (fun c hc => bne_iff_ne.2 fun heq => hnot (heq ▸ hc)) (by rintro c ⟨⟩; simp)
    unfold quotedArgument
    simp only [behind_append, Option.bind_eq_bind, Option.bind_some, hends, hquote]
    simp

theorem hasArgument_iff {t argument : List Char} :
    HasArgument t argument ↔ ∃ s size, s <:+ t ∧ quotedArgument s = some (argument, size) := by
  constructor
  · rintro ⟨quote, front, rest, hquote, hnot, rfl⟩
    exact ⟨_, _, List.suffix_append front _,
      quotedArgument_eq_some_iff.2 ⟨quote, rest, hquote, hnot, rfl, rfl⟩⟩
  · rintro ⟨s, size, ⟨front, rfl⟩, hs⟩
    obtain ⟨quote, rest, hquote, hnot, rfl, -⟩ := quotedArgument_eq_some_iff.1 hs
    exact ⟨quote, front, rest, hquote, hnot, rfl⟩

theorem selectList_of_quotedArgument {t argument : List Char} {size : Nat}
    (h : quotedArgument t = some (argument, size)) : selectList t = some (argument, size) := by
  obtain ⟨quote, rest, hquote, hnot, rfl, rfl⟩ := quotedArgument_eq_some_iff.1 h
  exact selectList_call hquote (fun hclose => hnot (hclose.subset (by simp))) rest

/-! ## Calls that stand apart -/

/-- Whether the calls of a text stand apart whose first characters belong to a call that has been found:
what is found is the quoted argument of a call, and no call starts in a found one and ends behind it. -/
def callsApartFrom : Nat → List Char → Bool
  | _, [] => true
  | skip + 1, c :: cs =>
    ((quotedArgument (c :: cs)).all fun call => call.2 ≤ skip + 1) && callsApartFrom skip cs
  | 0, c :: cs =>
    match selectList (c :: cs) with
    | some (_, size) => (quotedArgument (c :: cs)).isSome && callsApartFrom (size - 1) cs
    | none => callsApartFrom 0 cs

/-- A text whose select calls stand apart. -/
def CallsApart (t : List Char) : Prop := callsApartFrom 0 t = true

theorem hasArgument_of_mem_occurrences {t : List Char} {skip : Nat}
    (hapart : callsApartFrom skip t = true) {list : List Char}
    (h : list ∈ occurrencesFrom selectList skip t) : HasArgument t list := by
  rw [hasArgument_iff]
  induction t generalizing skip with
  | nil => cases skip <;> cases h
  | cons c t ih =>
    have hlater : ∀ skip, callsApartFrom skip t = true → list ∈ occurrencesFrom selectList skip t →
        ∃ s size, s <:+ c :: t ∧ quotedArgument s = some (list, size) := by
      intro skip hapart h
      obtain ⟨s, size, hs, hfound⟩ := ih hapart h
      exact ⟨s, size, hs.trans (List.suffix_cons c t), hfound⟩
    cases skip with
    | succ skip => exact hlater skip ((Bool.and_eq_true _ _).mp hapart).2 h
    | zero =>
      rw [callsApartFrom] at hapart
      rw [occurrencesFrom] at h
      cases hfound : selectList (c :: t) with
      | none =>
        rw [hfound] at hapart h
        exact hlater 0 hapart h
      | some found =>
        obtain ⟨found, foundSize⟩ := found
        rw [hfound] at hapart h
        obtain ⟨hquoted, hrest⟩ := (Bool.and_eq_true _ _).mp hapart
        rcases List.mem_cons.1 h with heq | h
        · obtain ⟨call, hcall⟩ := Option.isSome_iff_exists.1 hquoted
          have hsame : selectList (c :: t) = some (call.1, call.2) :=
            selectList_of_quotedArgument hcall
          obtain ⟨rfl, -⟩ := Prod.mk.inj (Option.some.inj (hfound.symm.trans hsame))
          exact ⟨c :: t, call.2, List.suffix_rfl, heq ▸ hcall⟩
        · exact hlater _ hrest h

/-! ## Calls inside calls -/

/-- The text of a call with a quoted argument, from the dot before its name. -/
def callText (method : List Char) (quote : Char) (argument : List Char) : List Char :=
  '.' :: (method ++ quote :: (argument ++ [quote, ')']))

/-- A call inside another one, behind its dot, stands between the quotes of that one. -/
theorem quoted_infix_of_inside {method : List Char} (hmethod : '.' ∉ method) {quote quote' : Char}
    (hquote : isQuote quote) {argument inner : List Char} (hnot : quote ∉ argument)
    (h : callText method quote' inner <:+: method ++ quote :: (argument ++ [quote, ')'])) :
    quote' :: (inner ++ [quote']) <:+: argument := by
  have hparen : ')' ≠ quote := by
    rintro rfl
    exact absurd hquote (by decide)
  have hdot : '.' ∉ method ++ [quote] := by
    have hne : '.' ≠ quote := by
      rintro rfl
      exact absurd hquote (by decide)
    simp [hmethod, hne]
  have hcall : callText method quote' inner =
      '.' :: (method ++ quote' :: (inner ++ [quote'])) ++ [')'] := by simp [callText]
  have hbehind : callText method quote' inner <:+: argument ++ [quote] ++ [')'] := by
    have hassoc : method ++ quote :: (argument ++ [quote, ')']) =
        method ++ [quote] ++ (argument ++ [quote] ++ [')']) := by simp
    exact infix_of_infix_append hdot (hassoc ▸ h)
  rcases List.infix_concat_iff.1 hbehind with hsuffix | hbefore
  · -- The inner call would end with the outer one, and so hold the quote of the outer one.
    rw [hcall] at hsuffix
    have hshort := ((List.suffix_append_inj_of_length_eq rfl).1 hsuffix).1
    have hassoc : '.' :: (method ++ quote' :: (inner ++ [quote'])) =
        ('.' :: (method ++ quote' :: inner)) ++ [quote'] := by simp
    rw [hassoc] at hshort
    have hlength : [quote'].length = [quote].length := rfl
    obtain ⟨hinner, hsame⟩ := (List.suffix_append_inj_of_length_eq hlength).1 hshort
    obtain rfl := (List.cons.inj hsame).1
    exact absurd (hinner.subset (by simp)) hnot
  · have hquoted : quote' :: (inner ++ [quote']) <:+: callText method quote' inner :=
      ⟨'.' :: method, [')'], by simp [callText]⟩
    rw [hcall] at hbefore
    exact hquoted.trans (hcall ▸ infix_of_infix_concat hparen hbefore)

/-- A call that starts behind the dot of another one and ends with it at the latest only has names of
that one. -/
theorem snakeNames_subset_of_inside {c : Char} {t s argument inner : List Char} {size size' : Nat}
    (houter : quotedArgument (c :: t) = some (argument, size)) (hs : s <:+ t)
    (hinner : quotedArgument s = some (inner, size'))
    (hends : size' + (t.length - s.length) ≤ size - 1) : snakeNames inner ⊆ snakeNames argument := by
  obtain ⟨quote, rest, hquote, hnot, ht, rfl⟩ := quotedArgument_eq_some_iff.1 houter
  obtain ⟨quote', rest', hquote', -, rfl, rfl⟩ := quotedArgument_eq_some_iff.1 hinner
  obtain ⟨front, rfl⟩ := hs
  have hmark : ".select(".toList = '.' :: "select(".toList := rfl
  have hmethod : "select(".toList.length = 7 := rfl
  have hdot : '.' ∉ "select(".toList := by decide
  rw [hmark] at ht hends
  generalize "select(".toList = method at ht hends hmethod hdot
  obtain ⟨-, ht⟩ := List.cons.inj ht
  have hwhole : (front ++ callText method quote' inner) ++ rest' =
      (method ++ quote :: (argument ++ [quote, ')'])) ++ rest := by
    rw [callText]
    simpa using ht
  refine snakeNames_subset_of_infix hquote' (quoted_infix_of_inside hdot hquote hnot ?_)
  have hprefix : front ++ callText method quote' inner <+:
      method ++ quote :: (argument ++ [quote, ')']) := by
    refine List.prefix_of_prefix_length_le (List.prefix_append _ rest') ⟨rest, hwhole.symm⟩ ?_
    simp only [callText, List.length_append, List.length_cons, List.length_nil] at hends ⊢
    omega
  exact (List.suffix_append front _).isInfix.trans hprefix.isInfix

/-! ## All names of a text -/

/-- The names of a quoted argument are found, unless its call starts in one that is found already: then
it ends there too. -/
theorem snakeNames_subset_or_inside {t : List Char} {skip : Nat}
    (hapart : callsApartFrom skip t = true) {s argument : List Char} {size : Nat} (hs : s <:+ t)
    (hcall : quotedArgument s = some (argument, size)) :
    snakeNames argument ⊆ (occurrencesFrom selectList skip t).flatMap snakeNames ∨
      size + (t.length - s.length) ≤ skip := by
  induction t generalizing skip with
  | nil =>
    obtain rfl := List.suffix_nil.1 hs
    cases hcall
  | cons c t ih =>
    cases skip with
    | succ skip =>
      obtain ⟨hhere, hrest⟩ := (Bool.and_eq_true _ _).mp hapart
      rcases List.suffix_cons_iff.1 hs with rfl | hs
      · rw [hcall] at hhere
        have hsize : size ≤ skip + 1 := of_decide_eq_true hhere
        exact .inr (by omega)
      · have hlength := hs.length_le
        rcases ih hrest hs with hfound | hinside
        · exact .inl hfound
        · rw [List.length_cons]
          exact .inr (by omega)
    | zero =>
      rw [callsApartFrom] at hapart
      rw [occurrencesFrom]
      cases hfound : selectList (c :: t) with
      | none =>
        rw [hfound] at hapart
        rcases List.suffix_cons_iff.1 hs with rfl | hs
        · rw [selectList_of_quotedArgument hcall] at hfound
          cases hfound
        · rcases ih hapart hs with hsubset | hinside
          · exact .inl hsubset
          · obtain ⟨quote, rest, -, -, -, rfl⟩ := quotedArgument_eq_some_iff.1 hcall
            exact absurd hinside (by omega)
      | some found =>
        obtain ⟨outer, outerSize⟩ := found
        rw [hfound] at hapart
        obtain ⟨hquoted, hrest⟩ := (Bool.and_eq_true _ _).mp hapart
        obtain ⟨⟨outer', outerSize'⟩, houter⟩ := Option.isSome_iff_exists.1 hquoted
        obtain ⟨rfl, rfl⟩ :=
          Prod.mk.inj (Option.some.inj (hfound.symm.trans (selectList_of_quotedArgument houter)))
        refine .inl ?_
        rw [List.flatMap_cons]
        rcases List.suffix_cons_iff.1 hs with rfl | hs
        · obtain ⟨rfl, rfl⟩ := Prod.mk.inj (Option.some.inj (houter.symm.trans hcall))
          exact List.subset_append_left _ _
        · rcases ih hrest hs with hsubset | hinside
          · exact List.subset_append_of_subset_right _ hsubset
          · exact List.subset_append_of_subset_left _
              (snakeNames_subset_of_inside houter hs hcall hinside)

/-- Where the select calls of a text stand apart, the projection rule finds the snake-case names in
their quoted arguments and no other. -/
theorem mem_projection_iff_of_callsApart {text : String} (h : CallsApart text.toList)
    (fields : NameSet) (x : String) :
    x ∈ QueryRule.projection.addFields text fields ↔
      x ∈ fields ∨ ∃ argument, HasArgument text.toList argument ∧ x ∈ snakeNames argument := by
  have hnames : x ∈ projectionNames text.toList ↔
      ∃ argument, HasArgument text.toList argument ∧ x ∈ snakeNames argument := by
    rw [projectionNames_eq_flatMap]
    constructor
    · intro hx
      obtain ⟨argument, hargument, hx⟩ := List.mem_flatMap.1 hx
      exact ⟨argument, hasArgument_of_mem_occurrences h hargument, hx⟩
    · rintro ⟨argument, hargument, hx⟩
      obtain ⟨s, size, hs, hcall⟩ := hasArgument_iff.1 hargument
      rcases snakeNames_subset_or_inside h hs hcall with hsubset | hinside
      · exact hsubset hx
      · obtain ⟨quote, rest, -, -, -, rfl⟩ := quotedArgument_eq_some_iff.1 hcall
        exact absurd hinside (by omega)
  rw [QueryRule.addFields, NameSet.mem_insertMany, ← hnames]
  rfl

/-- Calls with other quotes, inside one another and left open. -/
theorem mem_projection_of_nested_calls :
    let text := ".select(\"user_id, .select('start_at')\").select('id', n).eq('a', b).select(\x60no_x"
    CallsApart text.toList ∧ "start_at" ∈ QueryRule.projection.addFields text .empty := by
  intro text
  have hapart : CallsApart text.toList := by
    unfold CallsApart
    decide +kernel
  refine ⟨hapart, (mem_projection_iff_of_callsApart hapart .empty "start_at").2 (.inr ?_)⟩
  have hargument : HasArgument text.toList "start_at".toList :=
    ⟨'\'', ".select(\"user_id, ".toList, "\").select('id', n).eq('a', b).select(\x60no_x".toList,
      by decide, by decide, by decide +kernel⟩
  exact ⟨"start_at".toList, hargument, by decide +kernel⟩

/-- A text none of whose ends starts with a quoted argument has none. -/
theorem not_hasArgument_of_tails {t : List Char}
    (h : t.tails.all (fun s => (quotedArgument s).isNone) = true) (argument : List Char) :
    ¬HasArgument t argument := by
  rw [hasArgument_iff]
  rintro ⟨s, size, hs, hcall⟩
  have hnone := List.all_eq_true.1 h s ((List.mem_tails s t).2 hs)
  rw [hcall] at hnone
  cases hnone

/-- A value behind a select call with two arguments is taken for a column, and a call that starts in the
argument of another one and ends behind it is lost. -/
theorem projection_reads_past_argument :
    let counted := ".select('id', n).eq('status', 'in_progress')"
    let crossed := ".select(\"a_b .select('c_d\") e_f')"
    ("in_progress" ∈ QueryRule.projection.addFields counted .empty ∧
        ∀ argument, HasArgument counted.toList argument → "in_progress" ∉ snakeNames argument) ∧
      HasArgument crossed.toList "c_d\") e_f".toList ∧ "e_f" ∈ snakeNames "c_d\") e_f".toList ∧
        "e_f" ∉ QueryRule.projection.addFields crossed .empty := by
  intro counted crossed
  have hnone : counted.toList.tails.all (fun s => (quotedArgument s).isNone) = true := by
    decide +kernel
  have hcrossed : HasArgument crossed.toList "c_d\") e_f".toList :=
    ⟨'\'', ".select(\"a_b ".toList, [], by decide, by decide, by decide +kernel⟩
  exact ⟨⟨by decide +kernel, fun argument h => absurd h (not_hasArgument_of_tails hnone argument)⟩,
    hcrossed, by decide +kernel, by decide +kernel⟩

end ColumnAudit.Source
