import ColumnAudit.Proofs.Source.CallPatterns
import ColumnAudit.Proofs.Source.TypeKeySearch
import ColumnAudit.Source.SourceFile

/-! # Names that the rules find

For each of the three patterns of query calls there is a lemma on what a match looks like
(`selectList_shape`, `predicateName_shape`, `payload_shape`), a lemma that the pattern matches at a call of
that form, whatever comes behind it (`selectList_call`, `predicateName_call`, `payload_call`), and the fact
that it matches only at a dot. A predicate call holds no other dot and no line end
(`char_of_mem_predicateCall`).

`mem_snakeNames_iff` and `mem_snakeKeys_iff` say which words of a text count.

From the shapes follows how many names a source can use: at most three times as many as its text has
characters (`size_fields_le`).
-/

namespace ColumnAudit.Source
open Text
set_option autoImplicit false

/-! ## Words that count -/

theorem mem_snakeNames_iff {t : List Char} {x : String} :
    x ∈ snakeNames t ↔ ∃ w ∈ (words t).map Prod.fst, isSnakeCase w ∧ String.ofList w = x := by
  simp only [snakeNames_eq_filterMap_words, List.mem_filterMap, List.mem_map]
  constructor
  · rintro ⟨⟨w, rest⟩, hw, h⟩
    dsimp only at h
    split at h
    · rename_i hsnake
      exact ⟨w, ⟨(w, rest), hw, rfl⟩, hsnake, Option.some.inj h⟩
    · cases h
  · rintro ⟨w, ⟨⟨w', rest⟩, hw, rfl⟩, hsnake, rfl⟩
    exact ⟨(w', rest), hw, by simp only [hsnake, if_true]⟩

theorem mem_snakeKeys_iff {t : List Char} {x : String} :
    x ∈ snakeKeys t ↔ ∃ w rest, (w, rest) ∈ words t ∧ isSnakeCase w ∧
      (trimStart rest).head? = some ':' ∧ String.ofList w = x := by
  rw [snakeKeys_eq_filterMap_words, List.mem_filterMap]
  constructor
  · rintro ⟨⟨w, rest⟩, hw, h⟩
    dsimp only at h
    split at h
    · rename_i hkey
      obtain ⟨hsnake, hcolon⟩ := (Bool.and_eq_true _ _).mp hkey
      exact ⟨w, rest, hw, hsnake, beq_iff_eq.1 hcolon, Option.some.inj h⟩
    · cases h
  · rintro ⟨w, rest, hw, hsnake, hcolon, rfl⟩
    exact ⟨(w, rest), hw, by simp only [hsnake, hcolon, beq_self_eq_true, Bool.and_self, if_true]⟩

/-! ## Matches at dots -/

theorem startsWithDot_predicateName : StartsWithDot predicateName := by
  intro c t hc
  rw [Option.eq_none_iff_forall_ne_some]
  rintro ⟨name, size⟩ h
  obtain ⟨operation, -, rest, -, ht, -⟩ := predicateName_eq_some_iff.1 h
  exact hc (List.cons.inj ht).1

theorem startsWithDot_payload : StartsWithDot payload := by
  intro c t hc
  rw [Option.eq_none_iff_forall_ne_some]
  rintro ⟨inside, size⟩ h
  obtain ⟨operation, -, rest, -, ht, -⟩ := payload_eq_some_iff.1 h
  exact hc (List.cons.inj ht).1

theorem startsWithDot_selectList : StartsWithDot selectList := by
  intro c t hc
  rw [Option.eq_none_iff_forall_ne_some]
  rintro ⟨list, size⟩ h
  obtain ⟨quote, rest, -, -, ht, -⟩ := selectList_eq_some_iff.1 h
  exact hc (List.cons.inj ht).1

/-! ## Shapes of matches -/

theorem selectList_shape {t list : List Char} {size : Nat}
    (h : selectList t = some (list, size)) :
    ∃ quote rest, isQuote quote ∧ ¬ [quote, ')'] <:+: list ∧
      t = ".select(".toList ++ quote :: (list ++ quote :: ')' :: rest) ∧
      size = t.length - rest.length := by
  obtain ⟨quote, rest, hquote, hlist, rfl, rfl⟩ := selectList_eq_some_iff.1 h
  refine ⟨quote, rest, hquote, hlist, rfl, ?_⟩
  have hmark : ".select(".toList.length = 8 := rfl
  simp only [List.length_append, List.length_cons]
  omega

theorem predicateName_shape {t : List Char} {name : String} {size : Nat}
    (h : predicateName t = some (name, size)) :
    ∃ operation ∈ predicateOperations, ∃ rest, name.toList ≠ [] ∧
      (∀ c ∈ name.toList, isColumnChar c) ∧
      t = '.' :: (operation.toList ++ '(' :: '\x27' :: (name.toList ++ '\x27' :: rest)) ∧
      size = t.length - rest.length := by
  obtain ⟨operation, hop, rest, ⟨hne, hname⟩, rfl, rfl⟩ := predicateName_eq_some_iff.1 h
  refine ⟨operation, hop, rest, hne, hname, rfl, ?_⟩
  simp only [List.length_append, List.length_cons]
  omega

theorem payload_shape {t inside : List Char} {size : Nat}
    (h : payload t = some (inside, size)) :
    ∃ operation ∈ writeOperations, ∃ rest, ¬ ['\x7d', ')'] <:+: inside ∧
      t = '.' :: (operation.toList ++ '(' :: '\x7b' :: (inside ++ '\x7d' :: ')' :: rest)) ∧
      size = t.length - rest.length := by
  obtain ⟨operation, hop, rest, hinside, rfl, rfl⟩ := payload_eq_some_iff.1 h
  refine ⟨operation, hop, rest, hinside, rfl, ?_⟩
  simp only [List.length_append, List.length_cons]
  omega

/-! ## Matches at calls -/

theorem selectList_call {quote : Char} (hquote : isQuote quote) {list : List Char}
    (hlist : ¬ [quote, ')'] <:+: list) (rest : List Char) :
    selectList (".select(".toList ++ quote :: (list ++ quote :: ')' :: rest)) =
      some (list, list.length + 11) :=
  selectList_eq_some_iff.2 ⟨quote, rest, hquote, hlist, rfl, rfl⟩

theorem payload_call {operation : String} (hop : operation ∈ writeOperations) {inside : List Char}
    (hinside : ¬ ['\x7d', ')'] <:+: inside) (rest : List Char) :
    payload ('.' :: (operation.toList ++ '(' :: '\x7b' :: (inside ++ '\x7d' :: ')' :: rest))) =
      some (inside, operation.toList.length + inside.length + 5) :=
  payload_eq_some_iff.2 ⟨operation, hop, rest, hinside, rfl, rfl⟩

theorem predicateName_call {operation : String} (hop : operation ∈ predicateOperations)
    {name : List Char} (hne : name ≠ []) (hname : ∀ c ∈ name, isColumnChar c) (rest : List Char) :
    predicateName ('.' :: (operation.toList ++ '(' :: '\x27' :: (name ++ '\x27' :: rest))) =
      some (String.ofList name, operation.toList.length + name.length + 4) := by
  rw [predicateName_eq_some_iff, String.toList_ofList]
  exact ⟨operation, hop, rest, ⟨hne, hname⟩, rfl, rfl⟩

/-- The characters of a predicate call between its dot and the quote behind its name. -/
theorem char_of_mem_predicateCall {operation : String} (hop : operation ∈ predicateOperations)
    {name : List Char} (hname : ∀ c ∈ name, isColumnChar c) :
    ∀ c ∈ operation.toList ++ '(' :: '\x27' :: name, isColumnChar c ∨ c = '(' ∨ c = '\x27' := by
  have hops : ∀ o ∈ predicateOperations, o.toList.all isColumnChar := by decide
  intro c hc
  simp only [List.mem_append, List.mem_cons] at hc
  rcases hc with hc | rfl | rfl | hc
  · exact .inl (List.all_eq_true.1 (hops operation hop) c hc)
  · exact .inr (.inl rfl)
  · exact .inr (.inr rfl)
  · exact .inl (hname c hc)

/-! ## Calls of other methods -/

/-- The methods whose calls a rule looks at. -/
def QueryRule.operations : QueryRule → List String
  | projection => ["select"]
  | predicate => predicateOperations
  | writePayload => writeOperations

theorem operations_disjoint {rule other : QueryRule} (h : rule ≠ other) :
    ∀ operation ∈ rule.operations, operation ∉ other.operations := by
  cases rule <;> cases other <;> first | exact absurd rfl h | decide

theorem from_not_mem_operations (rule : QueryRule) : "from" ∉ rule.operations := by
  cases rule <;> decide

section OtherMethods
variable {method : String} (hparen : '(' ∉ method.toList)
include hparen

theorem mem_operations_of_selectList {t list : List Char} {size : Nat}
    (h : selectList ('.' :: (method.toList ++ '(' :: t)) = some (list, size)) :
    method ∈ QueryRule.projection.operations := by
  obtain ⟨quote, rest, -, -, hcall, -⟩ := selectList_shape h
  have hselect : ".select(".toList ++ quote :: (list ++ quote :: ')' :: rest) =
      '.' :: ("select".toList ++ '(' :: quote :: (list ++ quote :: ')' :: rest)) := rfl
  rw [hselect, List.cons.injEq] at hcall
  rw [eq_of_call_eq hparen (by decide) hcall.2]
  exact List.mem_singleton.2 rfl

theorem mem_operations_of_predicateName {t : List Char} {name : String} {size : Nat}
    (h : predicateName ('.' :: (method.toList ++ '(' :: t)) = some (name, size)) :
    method ∈ QueryRule.predicate.operations := by
  obtain ⟨operation, hop, rest, -, -, hcall, -⟩ := predicateName_shape h
  rw [List.cons.injEq] at hcall
  rw [eq_of_call_eq hparen (paren_not_mem_predicateOperations operation hop) hcall.2]
  exact hop

theorem mem_operations_of_payload {t inside : List Char} {size : Nat}
    (h : payload ('.' :: (method.toList ++ '(' :: t)) = some (inside, size)) :
    method ∈ QueryRule.writePayload.operations := by
  obtain ⟨operation, hop, rest, -, hcall, -⟩ := payload_shape h
  rw [List.cons.injEq] at hcall
  rw [eq_of_call_eq hparen (paren_not_mem_writeOperations operation hop) hcall.2]
  exact hop

/-- A rule passes over the call of a method that it does not look at. -/
theorem names_call_append {rule : QueryRule} (hm : method ∉ rule.operations)
    {arguments : List Char} (hdot : '.' ∉ method.toList ++ '(' :: arguments) (b : List Char) :
    rule.names ('.' :: (method.toList ++ '(' :: arguments) ++ b) = rule.names b := by
  have hassoc : method.toList ++ '(' :: arguments ++ b = method.toList ++ '(' :: (arguments ++ b) := by
    rw [List.append_assoc, List.cons_append]
  rw [List.cons_append]
  cases rule with
  | projection =>
    simp only [QueryRule.names, projectionNames_eq_flatMap]
    rw [startsWithDot_selectList.skip_of_none hdot]
    rw [hassoc, Option.eq_none_iff_forall_ne_some]
    exact fun found h => hm (mem_operations_of_selectList hparen h)
  | predicate =>
    simp only [QueryRule.names, predicateNames_eq_occurrences]
    rw [startsWithDot_predicateName.skip_of_none hdot]
    rw [hassoc, Option.eq_none_iff_forall_ne_some]
    exact fun found h => hm (mem_operations_of_predicateName hparen h)
  | writePayload =>
    simp only [QueryRule.names, payloadKeys_eq_flatMap]
    rw [startsWithDot_payload.skip_of_none hdot]
    rw [hassoc, Option.eq_none_iff_forall_ne_some]
    exact fun found h => hm (mem_operations_of_payload hparen h)

end OtherMethods

/-- A rule passes over a text without a dot. -/
theorem names_append_of_no_dot (rule : QueryRule) {a : List Char} (ha : '.' ∉ a) (b : List Char) :
    rule.names (a ++ b) = rule.names b := by
  cases rule with
  | projection =>
    simp only [QueryRule.names, projectionNames_eq_flatMap]
    rw [startsWithDot_selectList.skip ha]
  | predicate =>
    simp only [QueryRule.names, predicateNames_eq_occurrences]
    rw [startsWithDot_predicateName.skip ha]
  | writePayload =>
    simp only [QueryRule.names, payloadKeys_eq_flatMap]
    rw [startsWithDot_payload.skip ha]

/-! ## All names of a source -/

theorem mem_queryFields {text : String} {x : String} :
    x ∈ queryFields text ↔ ∃ rule : QueryRule, x ∈ rule.names text.toList := by
  simp only [queryFields, QueryRule.all, QueryRule.addFields, List.foldl_cons, List.foldl_nil,
    NameSet.mem_insertMany, NameSet.not_mem_empty, false_or]
  constructor
  · rintro ((h | h) | h)
    · exact ⟨.projection, h⟩
    · exact ⟨.predicate, h⟩
    · exact ⟨.writePayload, h⟩
  · rintro ⟨rule, h⟩
    cases rule with
    | projection => exact .inl (.inl h)
    | predicate => exact .inl (.inr h)
    | writePayload => exact .inr h

/-! ## How many names a source can use -/

theorem length_snakeNames_le (t : List Char) : (snakeNames t).length ≤ t.length := by
  rw [snakeNames_eq_filterMap_words]
  exact (List.length_filterMap_le _ _).trans (length_words_le t)

theorem length_snakeKeys_le (t : List Char) : (snakeKeys t).length ≤ t.length := by
  rw [snakeKeys_eq_filterMap_words]
  exact (List.length_filterMap_le _ _).trans (length_words_le t)

theorem length_projectionNames_le (t : List Char) : (projectionNames t).length ≤ t.length := by
  rw [projectionNames_eq_flatMap]
  refine length_flatMap_occurrences_le (fun t list size h => ?_) t
  obtain ⟨quote, rest, -, -, ht, hsize⟩ := selectList_shape h
  have hlength := congrArg List.length ht
  simp only [List.length_append, List.length_cons] at hlength
  have hnames := length_snakeNames_le list
  omega

theorem length_predicateNames_le (t : List Char) : (predicateNames t).length ≤ t.length := by
  have hflat : predicateNames t = (occurrences predicateName t).flatMap fun name => [name] := by
    rw [List.flatMap_singleton', predicateNames_eq_occurrences]
  rw [hflat]
  refine length_flatMap_occurrences_le (fun t name size h => ?_) t
  obtain ⟨operation, -, rest, -, -, ht, hsize⟩ := predicateName_shape h
  have hlength := congrArg List.length ht
  simp only [List.length_append, List.length_cons] at hlength
  rw [List.length_singleton]
  omega

theorem length_payloadKeys_le (t : List Char) : (payloadKeys t).length ≤ t.length := by
  rw [payloadKeys_eq_flatMap]
  refine length_flatMap_occurrences_le (fun t inside size h => ?_) t
  obtain ⟨operation, -, rest, -, ht, hsize⟩ := payload_shape h
  have hlength := congrArg List.length ht
  simp only [List.length_append, List.length_cons] at hlength
  have hkeys := length_snakeKeys_le inside
  omega

theorem length_names_le (rule : QueryRule) (t : List Char) : (rule.names t).length ≤ t.length := by
  cases rule with
  | projection => exact length_projectionNames_le t
  | predicate => exact length_predicateNames_le t
  | writePayload => exact length_payloadKeys_le t

theorem size_queryFields_le (text : String) : (queryFields text).size ≤ 3 * text.toList.length := by
  have hrules : ∀ (rules : List QueryRule) (fields : NameSet),
      (rules.foldl (fun fields rule => rule.addFields text fields) fields).size ≤
        fields.size + rules.length * text.toList.length := by
    intro rules
    induction rules with
    | nil => intro fields; simp
    | cons rule rules ih =>
      intro fields
      have hone : (rule.addFields text fields).size ≤ fields.size + (rule.names text.toList).length :=
        NameSet.size_insertMany_le fields _
      have hnames := length_names_le rule text.toList
      have hmany := ih (rule.addFields text fields)
      rw [List.foldl_cons, List.length_cons, Nat.add_mul]
      omega
  have hall := hrules QueryRule.all NameSet.empty
  have hempty : NameSet.empty.size = 0 := rfl
  have hthree : QueryRule.all.length = 3 := rfl
  rw [hempty, hthree] at hall
  unfold queryFields
  omega

theorem length_typeKeysFrom_le (t : List Char) (skip : Nat) (lineStart : Bool) :
    (typeKeysFrom skip lineStart t).length ≤ t.length := by
  induction t generalizing skip lineStart with
  | nil => simp [typeKeysFrom]
  | cons c t ih =>
    rw [List.length_cons]
    cases skip with
    | succ skip =>
      have := ih skip (c == '\n')
      rw [typeKeysFrom]
      omega
    | zero =>
      rw [typeKeysFrom.eq_def]
      dsimp only
      split
      · rename_i key rest _
        have := ih (t.length - rest.length) (c == '\n')
        rw [List.length_cons]
        omega
      · have := ih 0 (c == '\n')
        omega

theorem size_typeKeys_le (text : String) : (typeKeys text).size ≤ text.toList.length := by
  rw [typeKeys_eq_ofList]
  have hkeys := length_typeKeysFrom_le text.toList 0 true
  have hset : (NameSet.ofList (typeKeysFrom 0 true text.toList)).size ≤ NameSet.empty.size + _ :=
    NameSet.size_insertMany_le NameSet.empty (typeKeysFrom 0 true text.toList)
  have hempty : NameSet.empty.size = 0 := rfl
  omega

/-- A source uses at most three times as many names as its text has characters. -/
theorem size_fields_le (kind : ScanKind) (text : String) :
    (kind.fields text).size ≤ 3 * text.toList.length := by
  cases kind with
  | actions => exact size_queryFields_le text
  | types =>
    have hkeys : (ScanKind.types.fields text).size ≤ text.toList.length := size_typeKeys_le text
    omega

/-- How many characters the texts of sources hold. -/
def characters : List SourceFile → Nat
  | [] => 0
  | source :: sources => source.text.toList.length + characters sources

end ColumnAudit.Source
