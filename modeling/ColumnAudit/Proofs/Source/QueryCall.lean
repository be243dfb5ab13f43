import ColumnAudit.Proofs.Source.QueryPatterns

/-! # Programs of query calls

A `Call` is a call of the query builder with all that it names, and `Call.text` writes it down.
`names_text_append` is the step: a rule finds in the text of a call the columns of that call, if it is a
call of its kind, and goes on behind it. So no call hides or distorts another one, and
`queryFields_program` follows by induction on the calls.
-/

namespace ColumnAudit.Source
open Text
set_option autoImplicit false

/-! ## Names and values -/

/-- A name of two or more segments of lower-case letters, joined by underscores. -/
structure ColumnName where
  segments : List (List Char)
  letters : ∀ s ∈ segments, s ≠ [] ∧ ∀ c ∈ s, c.isLower
  several : 2 ≤ segments.length

/-- A word of letters, digits and underscores, or nothing. -/
structure Value where
  text : List Char
  word : ∀ c ∈ text, isNamePart c

namespace ColumnName
variable (name : ColumnName)

/-- The segments, joined. -/
def text : List Char := ['_'].intercalate name.segments

/-- The name as it is reported. -/
def spelled : String := String.ofList name.text

theorem segments_ne_nil : name.segments ≠ [] := by
  intro h
  have hseveral := name.several
  rw [h] at hseveral
  exact absurd hseveral (by decide)

theorem underscore_not_mem : ∀ s ∈ name.segments, '_' ∉ s := by
  intro s hs hmem
  exact absurd ((name.letters s hs).2 '_' hmem) (by decide)

theorem pieces_text : pieces '_' name.text = name.segments :=
  pieces_intercalate name.segments_ne_nil name.underscore_not_mem

theorem isColumnChar_text : ∀ c ∈ name.text, isColumnChar c := by
  apply forall_mem_intercalate
  · intro c hc
    rw [List.mem_singleton.1 hc]
    rfl
  · intro s hs c hc
    simp [isColumnChar, (name.letters s hs).2 c hc]

theorem isNamePart_text : ∀ c ∈ name.text, isNamePart c := by
  intro c hc
  have hcolumn : (c.isLower || c == '_') = true := name.isColumnChar_text c hc
  change (c.isUpper || c.isLower || c.isDigit || c == '_') = true
  simp only [Bool.or_eq_true] at hcolumn ⊢
  rcases hcolumn with h | h
  · exact .inl (.inl (.inr h))
  · exact .inr h

theorem text_ne_nil : name.text ≠ [] := by
  intro h
  have hpieces := name.pieces_text
  have hseveral := name.several
  rw [h] at hpieces
  rw [← hpieces] at hseveral
  exact absurd hseveral (by decide)

theorem isSnakeCase_text : isSnakeCase name.text := by
  have hseveral := name.several
  have hletters := name.letters
  unfold text
  cases hsegments : name.segments with
  | nil => exact absurd hsegments name.segments_ne_nil
  | cons first others =>
    rw [hsegments] at hseveral hletters
    have hothers : others ≠ [] := by
      rintro rfl
      exact absurd hseveral (by simp)
    rw [isSnakeCase_joined hothers fun s hs => ⟨(hletters s hs).1, fun c hc => ?_⟩]
    · exact List.all_eq_true.2 (hletters first (by simp)).2
    · simp [isSegmentChar, (hletters s hs).2 c hc]

end ColumnName

/-! ## Lists in calls -/

/-- Items behind a number of spaces, a comma and a space between them, and spaces behind them. -/
def listed (left : Nat) (items : List (List Char)) (right : Nat) : List Char :=
  List.replicate left ' ' ++ (", ".toList.intercalate items ++ List.replicate right ' ')

/-- What may come behind an item: nothing that goes on with its last word or makes it a key. -/
def EndsItem (t : List Char) : Prop := EndsWord t ∧ (trimStart t).head? ≠ some ':'

theorem endsItem_spaces (n : Nat) : EndsItem (List.replicate n ' ') := by
  constructor
  · cases n with
    | zero => intro c hc; cases hc
    | succ n =>
      intro c hc
      obtain rfl := Option.some.inj hc
      decide
  · have hblank : trimStart (List.replicate n ' ') = [] :=
      trimStart_eq_nil_iff.2 fun c hc => by rw [List.eq_of_mem_replicate hc]; decide
    rw [hblank]
    simp

theorem endsItem_comma (t : List Char) : EndsItem (", ".toList ++ t) := by
  have hcons : ", ".toList ++ t = ',' :: ' ' :: t := rfl
  constructor
  · intro c hc
    obtain rfl := Option.some.inj hc
    decide
  · rw [hcons, trimStart_cons_of_not_blank (by decide)]
    simp

theorem words_spaces_append (n : Nat) (t : List Char) :
    words (List.replicate n ' ' ++ t) = words t :=
  words_append_of_not_word (fun c hc => by rw [List.eq_of_mem_replicate hc]; decide) t

theorem words_comma_append (t : List Char) : words (", ".toList ++ t) = words t := by
  have hcons : ", ".toList ++ t = ',' :: ' ' :: t := rfl
  rw [hcons, words_cons_of_not_word (by decide), words_cons_of_not_word (by decide)]

/-- If the words of each item make up what a search finds there, then the words of a list do. -/
theorem filterMap_words_listed {α : Type} {f : List Char × List Char → Option String}
    {text : α → List Char} {found : α → String} (items : List α)
    (h : ∀ a ∈ items, ∀ t, EndsItem t →
      (words (text a ++ t)).filterMap f = found a :: (words t).filterMap f) (left right : Nat) :
    (words (listed left (items.map text) right)).filterMap f = items.map found := by
  have hspaces : words (List.replicate right ' ') = [] := by
    have hnil := words_spaces_append right []
    rw [List.append_nil] at hnil
    exact hnil
  rw [listed, words_spaces_append]
  induction items with
  | nil => simp [hspaces]
  | cons a items ih =>
    have hrest := ih fun b hb => h b (List.mem_cons_of_mem a hb)
    cases items with
    | nil =>
      rw [List.map_cons, List.map_nil, List.intercalate_singleton,
        h a (by simp) _ (endsItem_spaces right), hspaces]
      rfl
    | cons b items =>
      rw [List.map_cons, List.map_cons, List.intercalate_cons_cons, List.append_assoc,
        List.append_assoc, h a (by simp) _ (endsItem_comma _), words_comma_append]
      exact congrArg (List.cons (found a)) hrest

theorem forall_mem_listed {p : Char → Prop} {items : List (List Char)} {left right : Nat}
    (hspace : p ' ') (hcomma : p ',') (h : ∀ w ∈ items, ∀ c ∈ w, p c) :
    ∀ c ∈ listed left items right, p c := by
  have hjoined : ∀ c ∈ ", ".toList.intercalate items, p c := by
    apply forall_mem_intercalate _ h
    intro c hc
    have hmark : c = ',' ∨ c = ' ' := by simpa using hc
    rcases hmark with rfl | rfl
    · exact hcomma
    · exact hspace
  intro c hc
  rw [listed, List.mem_append, List.mem_append] at hc
  rcases hc with hc | hc | hc
  · rw [List.eq_of_mem_replicate hc]
    exact hspace
  · exact hjoined c hc
  · rw [List.eq_of_mem_replicate hc]
    exact hspace

/-! ## Calls -/

/-- A call of the query builder. The numbers count the spaces inside quotes and braces. -/
inductive Call where
  | source (table : ColumnName)
  | select (quote : Char) (quotes : isQuote quote) (left : Nat) (columns : List ColumnName)
      (right : Nat)
  | predicate (operation : String) (known : operation ∈ predicateOperations) (column : ColumnName)
      (value : Value)
  | write (operation : String) (known : operation ∈ writeOperations) (left : Nat)
      (members : List (ColumnName × Value)) (right : Nat)

/-- A key with its value. -/
def memberText (member : ColumnName × Value) : List Char :=
  member.1.text ++ (": ".toList ++ member.2.text)

namespace Call

def method : Call → String
  | source _ => "from"
  | select .. => "select"
  | predicate operation .. => operation
  | write operation .. => operation

/-- What stands behind the opening parenthesis, with the closing one. -/
def arguments : Call → List Char
  | source table => '\x27' :: (table.text ++ "')".toList)
  | select quote _ left columns right =>
    quote :: (listed left (columns.map ColumnName.text) right ++ [quote, ')'])
  | predicate _ _ column value => '\x27' :: (column.text ++ ("', ".toList ++ value.text ++ [')']))
  | write _ _ left members right =>
    '\x7b' :: (listed left (members.map memberText) right ++ "\x7d)".toList)

def text (call : Call) : List Char := '.' :: (call.method.toList ++ '(' :: call.arguments)

/-- The columns that a call names, all but the table of `.from`. -/
def columns : Call → List String
  | source _ => []
  | select _ _ _ columns _ => columns.map ColumnName.spelled
  | predicate _ _ column _ => [column.spelled]
  | write _ _ _ members _ => members.map fun member => member.1.spelled

/-- The rule that is made for a call. -/
def rule? : Call → Option QueryRule
  | source _ => none
  | select .. => some .projection
  | predicate .. => some .predicate
  | write .. => some .writePayload

/-! ### Characters of calls -/

/-- Characters that can stand between the marks of a call. -/
def IsPlain (c : Char) : Prop := isNamePart c ∨ c = ' ' ∨ c = ',' ∨ c = ':'

theorem isPlain_column (name : ColumnName) : ∀ c ∈ name.text, IsPlain c :=
  fun c hc => .inl (name.isNamePart_text c hc)

theorem isPlain_value (value : Value) : ∀ c ∈ value.text, IsPlain c :=
  fun c hc => .inl (value.word c hc)

theorem isPlain_columns (left : Nat) (columns : List ColumnName) (right : Nat) :
    ∀ c ∈ listed left (columns.map ColumnName.text) right, IsPlain c := by
  refine forall_mem_listed (.inr (.inl rfl)) (.inr (.inr (.inl rfl))) fun w hw => ?_
  obtain ⟨name, -, rfl⟩ := List.mem_map.1 hw
  exact isPlain_column name

theorem isPlain_members (left : Nat) (members : List (ColumnName × Value)) (right : Nat) :
    ∀ c ∈ listed left (members.map memberText) right, IsPlain c := by
  refine forall_mem_listed (.inr (.inl rfl)) (.inr (.inr (.inl rfl))) fun w hw => ?_
  obtain ⟨member, -, rfl⟩ := List.mem_map.1 hw
  intro c hc
  rw [memberText, List.mem_append, List.mem_append] at hc
  rcases hc with hc | hc | hc
  · exact isPlain_column member.1 c hc
  · have hmark : c = ':' ∨ c = ' ' := by simpa using hc
    rcases hmark with rfl | rfl
    · exact .inr (.inr (.inr rfl))
    · exact .inr (.inl rfl)
  · exact isPlain_value member.2 c hc

theorem not_isPlain_dot : ¬ IsPlain '.' := by
  unfold IsPlain
  decide

theorem not_isPlain_brace : ¬ IsPlain '\x7d' := by
  unfold IsPlain
  decide

theorem not_isPlain_quote {quote : Char} (h : isQuote quote) : ¬ IsPlain quote := by
  unfold IsPlain
  rcases isQuote_iff.1 h with rfl | rfl | rfl
  · decide
  · decide
  · decide

theorem paren_not_mem_method (call : Call) : '(' ∉ call.method.toList := by
  cases call with
  | source table =>
    change '(' ∉ "from".toList
    decide
  | select =>
    change '(' ∉ "select".toList
    decide
  | predicate operation known => exact paren_not_mem_predicateOperations operation known
  | write operation known => exact paren_not_mem_writeOperations operation known

theorem dot_not_mem (call : Call) : '.' ∉ call.method.toList ++ '(' :: call.arguments := by
  have hpredicate : ∀ o ∈ predicateOperations, '.' ∉ o.toList := by decide
  have hwrite : ∀ o ∈ writeOperations, '.' ∉ o.toList := by decide
  have hplain : ∀ {t : List Char}, (∀ c ∈ t, IsPlain c) → '.' ∉ t :=
    fun ht hmem => not_isPlain_dot (ht '.' hmem)
  cases call with
  | source table =>
    have htable := hplain (isPlain_column table)
    simp [method, arguments, htable]
  | select quote quotes left columns right =>
    have hcolumns := hplain (isPlain_columns left columns right)
    have hquote : '.' ≠ quote := by
      rintro rfl
      exact absurd quotes (by decide)
    simp [method, arguments, hcolumns, hquote]
  | predicate operation known column value =>
    have hcolumn := hplain (isPlain_column column)
    have hvalue := hplain (isPlain_value value)
    simp [method, arguments, hcolumn, hvalue, hpredicate operation known]
  | write operation known left members right =>
    have hmembers := hplain (isPlain_members left members right)
    simp [method, arguments, hmembers, hwrite operation known]

/-! ### Rules at calls -/

theorem method_not_mem {call : Call} {rule : QueryRule} (h : call.rule? ≠ some rule) :
    call.method ∉ rule.operations := by
  have hother : ∀ {r : QueryRule}, some r ≠ some rule → r ≠ rule := fun hne heq => hne (heq ▸ rfl)
  cases call with
  | source table => exact from_not_mem_operations rule
  | select => exact operations_disjoint (hother h) "select" (List.mem_singleton.2 rfl)
  | predicate operation known => exact operations_disjoint (hother h) operation known
  | write operation known => exact operations_disjoint (hother h) operation known

theorem snakeNames_columns (left : Nat) (columns : List ColumnName) (right : Nat) :
    snakeNames (listed left (columns.map ColumnName.text) right) =
      columns.map ColumnName.spelled := by
  rw [snakeNames_eq_filterMap_words]
  refine filterMap_words_listed columns (fun name _ t ht => ?_) left right
  have hword : ∀ c ∈ name.text, isWord c := fun c hc => isWord_of_isNamePart (name.isNamePart_text c hc)
  rw [words_append name.text_ne_nil hword ht.1, List.filterMap_cons]
  simp only [name.isSnakeCase_text, if_true]
  rfl

/-- A value that a search has no use for is passed over. It is a word of its own unless it is empty. -/
theorem filterMap_words_value {f : List Char × List Char → Option String} (value : Value)
    {t : List Char} (ht : EndsWord t) (hf : f (value.text, t) = none) :
    (words (value.text ++ t)).filterMap f = (words t).filterMap f := by
  have hvalue : ∀ c ∈ value.text, isWord c := fun c hc => isWord_of_isNamePart (value.word c hc)
  by_cases hempty : value.text = []
  · rw [hempty, List.nil_append]
  · rw [words_append hempty hvalue ht, List.filterMap_cons, hf]

theorem snakeKeys_members (left : Nat) (members : List (ColumnName × Value)) (right : Nat) :
    snakeKeys (listed left (members.map memberText) right) =
      members.map fun member => member.1.spelled := by
  rw [snakeKeys_eq_filterMap_words]
  refine filterMap_words_listed members (fun member _ t ht => ?_) left right
  obtain ⟨name, value⟩ := member
  have hname : ∀ c ∈ name.text, isWord c := fun c hc => isWord_of_isNamePart (name.isNamePart_text c hc)
  have hcons : ": ".toList ++ (value.text ++ t) = ':' :: ' ' :: (value.text ++ t) := rfl
  have hcolon : EndsWord (": ".toList ++ (value.text ++ t)) := by
    intro c hc
    obtain rfl := Option.some.inj hc
    decide
  have hkey : (trimStart (": ".toList ++ (value.text ++ t))).head? = some ':' := by
    rw [hcons, trimStart_cons_of_not_blank (by decide)]
    rfl
  have hbehind : words (": ".toList ++ (value.text ++ t)) = words (value.text ++ t) := by
    rw [hcons, words_cons_of_not_word (by decide), words_cons_of_not_word (by decide)]
  rw [memberText, List.append_assoc, List.append_assoc, words_append name.text_ne_nil hname hcolon,
    List.filterMap_cons, hbehind, filterMap_words_value value ht.1 (by simp [ht.2])]
  simp only [name.isSnakeCase_text, hkey, Bool.true_and, beq_self_eq_true, if_true]
  rfl

theorem projectionNames_select (quote : Char) (quotes : isQuote quote) (left : Nat)
    (columns : List ColumnName) (right : Nat) (b : List Char) :
    projectionNames ((select quote quotes left columns right).text ++ b) =
      columns.map ColumnName.spelled ++ projectionNames b := by
  have hlist : ¬ [quote, ')'] <:+: listed left (columns.map ColumnName.text) right := fun h =>
    not_isPlain_quote quotes (isPlain_columns left columns right quote (h.subset (by simp)))
  have hcall : selectList ((select quote quotes left columns right).text ++ b) =
      some (listed left (columns.map ColumnName.text) right,
        (select quote quotes left columns right).text.length) := by
    have htext : (select quote quotes left columns right).text ++ b = ".select(".toList ++ quote ::
        (listed left (columns.map ColumnName.text) right ++ quote :: ')' :: b) := by
      simp [text, method, arguments]
    rw [htext, selectList_call quotes hlist b]
    simp [text, method, arguments]
  rw [projectionNames_eq_flatMap, projectionNames_eq_flatMap,
    occurrences_append_of_some (by simp [text]) hcall, List.flatMap_cons, snakeNames_columns]

/-- The part of a predicate call that the pattern matches. -/
def predicateFront (operation : String) (column : ColumnName) : List Char :=
  '.' :: (operation.toList ++ '(' :: '\x27' :: (column.text ++ ['\x27']))

theorem predicateNames_predicate (operation : String) (known : operation ∈ predicateOperations)
    (column : ColumnName) (value : Value) (b : List Char) :
    predicateNames ((predicate operation known column value).text ++ b) =
      column.spelled :: predicateNames b := by
  have htext : (predicate operation known column value).text ++ b =
      predicateFront operation column ++ (", ".toList ++ (value.text ++ [')']) ++ b) := by
    simp [text, method, arguments, predicateFront]
  have hback : '.' ∉ ", ".toList ++ (value.text ++ [')']) := by
    have hvalue : '.' ∉ value.text := fun h => not_isPlain_dot (isPlain_value value '.' h)
    simp [hvalue]
  have hcall : ∀ t, predicateName (predicateFront operation column ++ t) =
      some (column.spelled, (predicateFront operation column).length) := by
    intro t
    have hfront : predicateFront operation column ++ t = '.' :: (operation.toList ++ '(' :: '\x27' ::
        (column.text ++ '\x27' :: t)) := by simp [predicateFront]
    rw [hfront, predicateName_call known column.text_ne_nil column.isColumnChar_text]
    simp [predicateFront, ColumnName.spelled]
    omega
  rw [predicateNames_eq_occurrences, predicateNames_eq_occurrences, htext,
    occurrences_append_of_some (by simp [predicateFront]) (hcall _),
    startsWithDot_predicateName.skip hback]

theorem payloadKeys_write (operation : String) (known : operation ∈ writeOperations) (left : Nat)
    (members : List (ColumnName × Value)) (right : Nat) (b : List Char) :
    payloadKeys ((write operation known left members right).text ++ b) =
      (members.map fun member => member.1.spelled) ++ payloadKeys b := by
  have hmembers : ¬ ['\x7d', ')'] <:+: listed left (members.map memberText) right := fun h =>
    not_isPlain_brace (isPlain_members left members right '\x7d' (h.subset (by simp)))
  have hcall : payload ((write operation known left members right).text ++ b) =
      some (listed left (members.map memberText) right,
        (write operation known left members right).text.length) := by
    have htext : (write operation known left members right).text ++ b = '.' ::
        (operation.toList ++ '(' :: '\x7b' ::
          (listed left (members.map memberText) right ++ '\x7d' :: ')' :: b)) := by
      simp [text, method, arguments]
    rw [htext, payload_call known hmembers b]
    simp [text, method, arguments]
    omega
  rw [payloadKeys_eq_flatMap, payloadKeys_eq_flatMap,
    occurrences_append_of_some (by simp [text]) hcall, List.flatMap_cons, snakeKeys_members]

/-- The columns of a call that a rule finds. -/
def columnsFor (rule : QueryRule) (call : Call) : List String :=
  if call.rule? = some rule then call.columns else []

/-- A rule finds in a call the columns that are there for it, and goes on behind the call. -/
theorem names_text_append (rule : QueryRule) (call : Call) (b : List Char) :
    rule.names (call.text ++ b) = call.columnsFor rule ++ rule.names b := by
  by_cases h : call.rule? = some rule
  · rw [columnsFor, if_pos h]
    cases call with
    | source table => cases h
    | select quote quotes left columns right =>
      obtain rfl := Option.some.inj h
      exact projectionNames_select quote quotes left columns right b
    | predicate operation known column value =>
      obtain rfl := Option.some.inj h
      exact predicateNames_predicate operation known column value b
    | write operation known left members right =>
      obtain rfl := Option.some.inj h
      exact payloadKeys_write operation known left members right b
  · rw [columnsFor, if_neg h, List.nil_append]
    exact names_call_append call.paren_not_mem_method (method_not_mem h) call.dot_not_mem b

theorem mem_columns_iff {call : Call} {x : String} :
    x ∈ call.columns ↔ ∃ rule, x ∈ call.columnsFor rule := by
  constructor
  · intro h
    cases call with
    | source table => cases h
    | select => exact ⟨.projection, h⟩
    | predicate => exact ⟨.predicate, h⟩
    | write => exact ⟨.writePayload, h⟩
  · rintro ⟨rule, h⟩
    unfold columnsFor at h
    split at h
    · exact h
    · cases h

end Call

/-! ## Programs -/

/-- Line feeds and semicolons between calls. -/
structure Gap where
  text : List Char
  breaks : ∀ c ∈ text, c = '\n' ∨ c = ';'

theorem Gap.dot_not_mem (gap : Gap) : '.' ∉ gap.text := by
  intro h
  rcases gap.breaks '.' h with h | h
  · cases h
  · cases h

/-- Calls one after the other, each with the gap behind it. -/
def programText (calls : List (Call × Gap)) : List Char :=
  calls.flatMap fun (call, gap) => call.text ++ gap.text

theorem names_programText (rule : QueryRule) (calls : List (Call × Gap)) :
    rule.names (programText calls) = calls.flatMap fun (call, _) => call.columnsFor rule := by
  induction calls with
  | nil => cases rule <;> rfl
  | cons first calls ih =>
    obtain ⟨call, gap⟩ := first
    rw [programText, List.flatMap_cons, List.flatMap_cons, List.append_assoc,
      Call.names_text_append, names_append_of_no_dot rule gap.dot_not_mem]
    exact congrArg (call.columnsFor rule ++ ·) ih

/-- The names that a program of query calls uses are the columns that its calls name. -/
theorem queryFields_program (calls : List (Call × Gap)) :
    queryFields (String.ofList (programText calls)) =
      NameSet.ofList (calls.flatMap fun (call, _) => call.columns) := by
  refine NameSet.ext fun x => ?_
  rw [mem_queryFields, NameSet.mem_ofList, String.toList_ofList]
  simp only [names_programText, List.mem_flatMap, Call.mem_columns_iff]
  constructor
  · rintro ⟨rule, call, hcall, h⟩
    exact ⟨call, hcall, rule, h⟩
  · rintro ⟨call, hcall, rule, h⟩
    exact ⟨rule, call, hcall, h⟩

/-! ### A program of all kinds of calls -/

/-- A name of two segments. -/
def twoSegments (first second : String)
    (letters : [first, second].all fun s => !s.toList.isEmpty && s.toList.all Char.isLower) :
    ColumnName where
  segments := [first.toList, second.toList]
  letters := by simpa using letters
  several := le_refl 2

def startAt : ColumnName := twoSegments "start" "at" (by decide +kernel)

def userId : ColumnName := twoSegments "user" "id" (by decide +kernel)

def eventLog : ColumnName := twoSegments "event" "log" (by decide +kernel)

def dueOn : ColumnName := twoSegments "due" "on" (by decide +kernel)

def newLine : Gap := ⟨[';', '\n'], by simp⟩

def noGap : Gap := ⟨[], nofun⟩

/-- A query, and two writes in a line behind it. -/
def eventCalls : List (Call × Gap) :=
  [(.source eventLog, noGap),
   (.select '\x60' (by decide) 1 [startAt, userId] 0, noGap),
   (.predicate "gte" (by decide) startAt ⟨"Jan_1".toList, List.all_eq_true.1 (by decide +kernel)⟩, newLine),
   (.source eventLog, noGap),
   (.write "insert" (by decide) 1
      [(userId, ⟨"me".toList, List.all_eq_true.1 (by decide +kernel)⟩), (dueOn, ⟨[], nofun⟩)] 1, noGap),
   (.write "update" (by decide) 0
      [(dueOn, ⟨"event_id".toList, List.all_eq_true.1 (by decide +kernel)⟩)] 0, newLine)]

theorem queryFields_eventCalls :
    programText eventCalls =
      (".from('event_log').select(\x60 start_at, user_id\x60).gte('start_at', Jan_1);\n" ++
        ".from('event_log').insert(\x7b user_id: me, due_on:  \x7d)" ++
        ".update(\x7bdue_on: event_id\x7d);\n").toList ∧
    (queryFields (String.ofList (programText eventCalls))).toList = ["due_on", "start_at", "user_id"] := by
  refine ⟨by decide +kernel, ?_⟩
  rw [queryFields_program]
  decide +kernel

end ColumnAudit.Source
