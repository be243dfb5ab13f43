import ColumnAudit.Proofs.Source.QueryPatterns

/-! # One name in calls of all kinds

What a rule finds in any text has the shape that the rule accepts (`accepts_of_mem_names`), and a name of
that shape is found in the call that the rule is made for, whatever value stands beside it. The shapes are
not the same: a select list and a payload accept digits behind the first underscore, a predicate accepts
none.

So the calls of all kinds show a name exactly if it has no digit (`mem_queryFields_calls_iff`).
-/

namespace ColumnAudit.Source
open Text
set_option autoImplicit false

/-! ## Shapes of names -/

/-- The words that a rule takes for names. -/
def QueryRule.Accepts : QueryRule → List Char → Prop
  | projection, word => isSnakeCase word
  | predicate, word => word ≠ [] ∧ ∀ c ∈ word, isColumnChar c
  | writePayload, word => isSnakeCase word

theorem accepts_of_mem_names {rule : QueryRule} {t : List Char} {x : String} (h : x ∈ rule.names t) :
    rule.Accepts x.toList := by
  cases rule with
  | projection =>
    obtain ⟨list, -, hx⟩ := List.mem_flatMap.1 h
    obtain ⟨word, -, hsnake, rfl⟩ := mem_snakeNames_iff.1 hx
    rw [String.toList_ofList]
    exact hsnake
  | predicate =>
    rw [QueryRule.names, predicateNames_eq_occurrences] at h
    obtain ⟨s, size, -, hs⟩ := exists_suffix_of_mem_occurrences h
    obtain ⟨operation, -, rest, hne, hchars, -⟩ := predicateName_shape hs
    exact ⟨hne, hchars⟩
  | writePayload =>
    obtain ⟨inside, -, hx⟩ := List.mem_flatMap.1 h
    obtain ⟨word, rest, -, hsnake, -, rfl⟩ := mem_snakeKeys_iff.1 hx
    rw [String.toList_ofList]
    exact hsnake

/-- A name of two or more segments of lower-case letters and digits, joined by underscores, whose first
character is a letter. -/
structure SnakeName where
  first : List Char
  others : List (List Char)
  several : others ≠ []
  segments : ∀ s ∈ first :: others, s ≠ [] ∧ ∀ c ∈ s, isSegmentChar c
  letter : ∀ c ∈ first.head?, c.isLower

namespace SnakeName
variable (name : SnakeName)

/-- The segments, joined. -/
def text : List Char := ['_'].intercalate (name.first :: name.others)

/-- The name as it is reported. -/
def spelled : String := String.ofList name.text

theorem isSnakeCase_text_iff : isSnakeCase name.text ↔ ∀ c ∈ name.first, c.isLower := by
  unfold text
  rw [isSnakeCase_joined name.several name.segments, List.all_eq_true]

theorem isSegmentChar_text : ∀ c ∈ name.text, c = '_' ∨ isSegmentChar c := by
  apply forall_mem_intercalate
  · intro c hc
    exact .inl (List.mem_singleton.1 hc)
  · intro s hs c hc
    exact .inr ((name.segments s hs).2 c hc)

theorem first_prefix_text : name.first <+: name.text := by
  unfold text
  cases name.others with
  | nil =>
    rw [List.intercalate_singleton]
  | cons s ss =>
    rw [List.intercalate_cons_cons, List.append_assoc]
    exact List.prefix_append _ _

theorem text_ne_nil : name.text ≠ [] := by
  intro h
  have hprefix := name.first_prefix_text
  rw [h, List.prefix_nil] at hprefix
  exact (name.segments name.first (by simp)).1 hprefix

theorem isNamePart_text : ∀ c ∈ name.text, isNamePart c := by
  intro c hc
  show (c.isUpper || c.isLower || c.isDigit || c == '_') = true
  rcases name.isSegmentChar_text c hc with rfl | hsegment
  · decide
  · have hclass : (c.isLower || c.isDigit) = true := hsegment
    rw [Bool.or_assoc c.isUpper, hclass, Bool.or_true, Bool.true_or]

theorem isWord_text : ∀ c ∈ name.text, isWord c := fun c hc =>
  isWord_of_isNamePart (name.isNamePart_text c hc)

theorem isColumnChar_iff {c : Char} (hc : c ∈ name.text) : isColumnChar c ↔ c.isDigit = false := by
  rcases name.isSegmentChar_text c hc with rfl | hsegment
  · decide
  have hclass : (c.isLower || c.isDigit) = true := hsegment
  show (c.isLower || c == '_') = true ↔ c.isDigit = false
  cases hdigit : c.isDigit with
  | false =>
    rw [hdigit, Bool.or_false] at hclass
    rw [hclass, Bool.true_or]
    exact iff_of_true rfl rfl
  | true =>
    have hbounds : 48 ≤ c.toNat ∧ c.toNat ≤ 57 := Char.isDigit_iff_toNat.1 hdigit
    refine iff_of_false ?_ (by simp)
    rw [Bool.or_eq_true, beq_iff_eq]
    rintro (hlower | rfl)
    · have hletter : 97 ≤ c.toNat := of_decide_eq_true ((Bool.and_eq_true _ _).mp hlower).1
      omega
    · exact absurd hbounds (by decide)

theorem accepts_iff (rule : QueryRule) :
    rule.Accepts name.text ↔
      if rule = .predicate then ∀ c ∈ name.text, c.isDigit = false else ∀ c ∈ name.first, c.isLower := by
  cases rule with
  | projection => exact name.isSnakeCase_text_iff
  | predicate =>
    show (name.text ≠ [] ∧ ∀ c ∈ name.text, isColumnChar c) ↔ ∀ c ∈ name.text, c.isDigit = false
    rw [and_iff_right name.text_ne_nil]
    exact forall₂_congr fun c hc => name.isColumnChar_iff hc
  | writePayload => exact name.isSnakeCase_text_iff

/-! ## Calls with a name -/

/-- A select call with the name as its list. -/
def selectCall : String :=
  String.ofList ('.' :: ("select".toList ++ '(' :: '\x27' :: (name.text ++ ['\x27', ')'])))

/-- A call whose first argument is the name in quotes. -/
def predicateCall (operation value : String) : String :=
  String.ofList ('.' :: (operation.toList ++ '(' :: '\x27' ::
    (name.text ++ '\x27' :: (", ".toList ++ (value.toList ++ [')'])))))

/-- A call whose object has the name as its first key. -/
def writeCall (operation value : String) : String :=
  String.ofList ('.' :: (operation.toList ++ '(' :: '\x7b' :: ' ' ::
    (name.text ++ (": ".toList ++ (value.toList ++ " \x7d)".toList)))))

/-- A name with a digit in its first segment is found in no text. -/
theorem first_isLower_of_mem_queryFields {text : String} (h : name.spelled ∈ queryFields text) :
    ∀ c ∈ name.first, c.isLower := by
  obtain ⟨rule, hrule⟩ := mem_queryFields.1 h
  have haccepts := accepts_of_mem_names hrule
  rw [spelled, String.toList_ofList, name.accepts_iff] at haccepts
  split at haccepts
  · intro c hc
    have hdigit := haccepts c (name.first_prefix_text.subset hc)
    have hclass : (c.isLower || c.isDigit) = true := (name.segments name.first (by simp)).2 c hc
    rw [hdigit, Bool.or_false] at hclass
    exact hclass
  · exact haccepts

theorem spelled_mem_snakeNames (h : ∀ c ∈ name.first, c.isLower) :
    name.spelled ∈ snakeNames name.text := by
  have hwords := words_append name.text_ne_nil name.isWord_text (t := []) (by rintro c ⟨⟩)
  rw [List.append_nil] at hwords
  apply mem_snakeNames_iff.2
  refine ⟨name.text, ?_, name.isSnakeCase_text_iff.2 h, rfl⟩
  rw [hwords]
  exact List.mem_cons_self

theorem spelled_mem_snakeKeys (h : ∀ c ∈ name.first, c.isLower) (rest : List Char) :
    name.spelled ∈ snakeKeys (' ' :: (name.text ++ (':' :: rest))) := by
  have hends : EndsWord (':' :: rest) := by
    rintro c ⟨⟩
    decide
  apply mem_snakeKeys_iff.2
  refine ⟨name.text, ':' :: rest, ?_, name.isSnakeCase_text_iff.2 h, ?_, rfl⟩
  · rw [words_cons_of_not_word (by decide), words_append name.text_ne_nil name.isWord_text hends]
    exact List.mem_cons_self
  · rw [trimStart_cons_of_not_blank (by decide)]
    rfl

theorem mem_queryFields_selectCall_iff :
    name.spelled ∈ queryFields name.selectCall ↔ ∀ c ∈ name.first, c.isLower := by
  refine ⟨name.first_isLower_of_mem_queryFields, fun h => ?_⟩
  have hquote : ¬ ['\x27', ')'] <:+: name.text := fun hclose =>
    absurd (name.isNamePart_text '\x27' (hclose.subset (by simp))) (by decide)
  have hsingle : isQuote '\x27' := by decide
  have hcall := selectList_call hsingle hquote []
  apply mem_queryFields.2
  refine ⟨.projection, ?_⟩
  rw [QueryRule.names, projectionNames_eq_flatMap]
  refine List.mem_flatMap.2 ⟨name.text, ?_, name.spelled_mem_snakeNames h⟩
  unfold selectCall
  rw [String.toList_ofList]
  exact mem_occurrences_of_some hcall

theorem mem_queryFields_writeCall_iff {operation : String} (hoperation : operation ∈ writeOperations)
    (value : String) :
    name.spelled ∈ queryFields (name.writeCall operation value) ↔ ∀ c ∈ name.first, c.isLower := by
  refine ⟨name.first_isLower_of_mem_queryFields, fun h => ?_⟩
  -- The payload may end inside the value, but not before it.
  have hclosed : ['\x7d', ')'] <:+: value.toList ++ " \x7d)".toList :=
    ⟨value.toList ++ [' '], [], by simp⟩
  obtain ⟨before, after, hbefore, hvalue⟩ := exists_first_pair hclosed
  have hinside : ¬ ['\x7d', ')'] <:+: ' ' :: (name.text ++ (':' :: ' ' :: before)) := by
    intro hpair
    have hbrace : '\x7d' ∉ ' ' :: (name.text ++ [':', ' ']) := by
      intro hmem
      have hname : '\x7d' ∉ name.text := fun hmem =>
        absurd (name.isNamePart_text '\x7d' hmem) (by decide)
      simp [hname] at hmem
    have hassoc : ' ' :: (name.text ++ (':' :: ' ' :: before)) =
        ' ' :: (name.text ++ [':', ' ']) ++ before := by simp
    rw [hassoc] at hpair
    exact hbefore (infix_of_infix_append hbrace hpair)
  have hcall := payload_call hoperation hinside after
  have hcolon : ": ".toList = [':', ' '] := rfl
  have htext : (name.writeCall operation value).toList = '.' :: (operation.toList ++ '(' :: '\x7b' ::
      (' ' :: (name.text ++ (':' :: ' ' :: before)) ++ '\x7d' :: ')' :: after)) := by
    unfold writeCall
    rw [String.toList_ofList, hvalue, hcolon]
    simp
  apply mem_queryFields.2
  refine ⟨.writePayload, ?_⟩
  rw [QueryRule.names, payloadKeys_eq_flatMap, htext]
  refine List.mem_flatMap.2 ⟨_, ?_, name.spelled_mem_snakeKeys h (' ' :: before)⟩
  exact mem_occurrences_of_some hcall

theorem mem_queryFields_predicateCall {operation : String}
    (hoperation : operation ∈ predicateOperations) (h : ∀ c ∈ name.text, c.isDigit = false)
    (value : String) : name.spelled ∈ queryFields (name.predicateCall operation value) := by
  have hchars : ∀ c ∈ name.text, isColumnChar c := fun c hc => (name.isColumnChar_iff hc).2 (h c hc)
  have hcall := predicateName_call hoperation name.text_ne_nil hchars
    (", ".toList ++ (value.toList ++ [')']))
  apply mem_queryFields.2
  refine ⟨.predicate, ?_⟩
  rw [QueryRule.names, predicateNames_eq_occurrences, predicateCall, String.toList_ofList]
  exact mem_occurrences_of_some hcall

/-- A predicate call hides a name with a digit, unless its value is a call itself. -/
theorem no_digit_of_mem_predicateCall {operation value : String}
    (hoperation : operation ∈ predicateOperations) (hvalue : '.' ∉ value.toList)
    (h : name.spelled ∈ queryFields (name.predicateCall operation value)) :
    ∀ c ∈ name.text, c.isDigit = false := by
  have hops : ∀ o ∈ predicateOperations, '(' ∉ o.toList ∧ '.' ∉ o.toList := by decide
  obtain ⟨hparen, hdot⟩ := hops operation hoperation
  have hname : '.' ∉ name.text := fun hmem => absurd (name.isNamePart_text '.' hmem) (by decide)
  obtain ⟨rule, hrule⟩ := mem_queryFields.1 h
  by_cases hpredicate : rule = .predicate
  · subst hpredicate
    have haccepts := accepts_of_mem_names hrule
    rw [spelled, String.toList_ofList, name.accepts_iff, if_pos rfl] at haccepts
    exact haccepts
  · have hother : operation ∉ rule.operations := fun hmem =>
      operations_disjoint hpredicate operation hmem hoperation
    have harguments : '.' ∉ operation.toList ++ '(' :: '\x27' ::
        (name.text ++ '\x27' :: (", ".toList ++ (value.toList ++ [')']))) := by
      simp [hdot, hname, hvalue]
    have hnothing := names_call_append hparen hother harguments []
    rw [List.append_nil] at hnothing
    unfold predicateCall at hrule
    rw [String.toList_ofList, hnothing] at hrule
    cases rule <;> cases hrule

end SnakeName

/-! ## Calls of all kinds -/

/-- A name shows in calls of every kind exactly if it has no digit. For a select list and for a payload
it is enough that its first segment has none, for a predicate it is not. -/
theorem mem_queryFields_calls_iff (name : SnakeName) :
    ((name.spelled ∈ queryFields name.selectCall ∧
        (∀ operation ∈ predicateOperations, ∀ value,
          name.spelled ∈ queryFields (name.predicateCall operation value)) ∧
        ∀ operation ∈ writeOperations, ∀ value,
          name.spelled ∈ queryFields (name.writeCall operation value)) ↔
      ∀ c ∈ name.text, c.isDigit = false) ∧
    (name.spelled ∈ queryFields name.selectCall ↔ ∀ c ∈ name.first, c.isLower) ∧
    (∀ operation ∈ writeOperations, ∀ value,
      (name.spelled ∈ queryFields (name.writeCall operation value) ↔ ∀ c ∈ name.first, c.isLower)) ∧
    ∀ operation ∈ predicateOperations, ∀ value, '.' ∉ value.toList →
      (name.spelled ∈ queryFields (name.predicateCall operation value) ↔
        ∀ c ∈ name.text, c.isDigit = false) := by
  have hselect := name.mem_queryFields_selectCall_iff
  refine ⟨⟨?_, ?_⟩, hselect, ?_, ?_⟩
  · rintro ⟨-, hpredicate, -⟩
    have heq : "eq" ∈ predicateOperations := by decide
    exact name.no_digit_of_mem_predicateCall heq (by simp) (hpredicate "eq" heq "")
  · intro h
    have heq : "eq" ∈ predicateOperations := by decide
    have hfirst := name.first_isLower_of_mem_queryFields (name.mem_queryFields_predicateCall heq h "")
    refine ⟨hselect.2 hfirst, fun operation hoperation value => ?_, fun operation hoperation value => ?_⟩
    · exact name.mem_queryFields_predicateCall hoperation h value
    · exact (name.mem_queryFields_writeCall_iff hoperation value).2 hfirst
  · intro operation hoperation value
    exact name.mem_queryFields_writeCall_iff hoperation value
  · intro operation hoperation value hvalue
    constructor
    · exact name.no_digit_of_mem_predicateCall hoperation hvalue
    · intro h
      exact name.mem_queryFields_predicateCall hoperation h value

/-- The name `line_1` shows in a select list and in a payload but in no comparison, the name `a1_b` in
none of them. -/
theorem calls_hide_names_with_digits :
    (∃ name : SnakeName, name.spelled = "line_1" ∧ name.spelled ∈ queryFields name.selectCall ∧
        name.spelled ∈ queryFields (name.writeCall "insert" "v") ∧
        name.spelled ∉ queryFields (name.predicateCall "eq" "v")) ∧
      ∃ name : SnakeName, name.spelled = "a1_b" ∧ name.spelled ∉ queryFields name.selectCall ∧
        name.spelled ∉ queryFields (name.writeCall "insert" "v") ∧
        name.spelled ∉ queryFields (name.predicateCall "eq" "v") := by
  constructor
  · refine ⟨⟨"line".toList, ["1".toList], by decide, all_segments_iff.1 (by decide), ?_⟩, ?_⟩
    · rintro c ⟨⟩
      decide
    · decide +kernel
  · refine ⟨⟨"a1".toList, ["b".toList], by decide, all_segments_iff.1 (by decide), ?_⟩, ?_⟩
    · rintro c ⟨⟩
      decide
    · decide +kernel

end ColumnAudit.Source
