import ColumnAudit.Proofs.Schema.CommentedBody

/-! # Layouts of a table body

The definitions of a table may stand on one line, or each on a line of its own with its comma behind
it. The two layouts are cut in different ways: the first by a count of open parentheses and literals
that runs through the whole line, the second at the line ends, with the commas left on.

A `Definition` is a text that both ways keep in one piece. The count is back where it was behind each
definition (`splitFrom_append`), and a comma does not change the column of what stands before it
(`columnName_append_comma`). So both layouts of a table give one catalog
(`parse_oneLine_eq_parse_onLines`).
-/

namespace ColumnAudit.Schema
open Text
set_option autoImplicit false

/-! ## Definitions -/

/-- A text without the insides of its literals, whose quotes are kept; `literal` says that the text
starts inside one. -/
def outsideLiterals (literal : Bool) : List Char → List Char
  | [] => []
  | c :: cs =>
    if c = '\x27' then c :: outsideLiterals (!literal) cs
    else if literal then outsideLiterals literal cs
    else c :: outsideLiterals literal cs

/-- A text behind `depth` open parentheses: it closes no more of them than there are, and its commas
stand inside one. -/
structure Nested (depth : Nat) (t : List Char) : Prop where
  closed : ∀ p, p <+: t → p.count ')' ≤ depth + p.count '('
  enclosed : ∀ p, p ++ [','] <+: t → p.count ')' < depth + p.count '('

instance (depth : Nat) (t : List Char) : Decidable (Nested depth t) :=
  decidable_of_iff ((∀ p ∈ t.inits, p.count ')' ≤ depth + p.count '(') ∧
      ∀ p ∈ t.inits, p ++ [','] <+: t → p.count ')' < depth + p.count '(') <| by
    constructor
    · rintro ⟨hclosed, henclosed⟩
      refine ⟨fun p hp => hclosed p ((List.mem_inits p t).2 hp), fun p hp => ?_⟩
      exact henclosed p ((List.mem_inits p t).2 ((List.prefix_append p _).trans hp)) hp
    · rintro ⟨hclosed, henclosed⟩
      exact ⟨fun p hp => hclosed p ((List.mem_inits p t).1 hp), fun p _ hp => henclosed p hp⟩

/-- A definition without its comma: a column with a type, a constraint or anything else that stays in
one piece on one line and on its own. -/
structure Definition where
  text : List Char
  one_line : '\n' ∉ text
  unterminated : ¬ [')', ';'] <:+: text
  uncommented : ¬ ['-', '-'] <:+: outsideLiterals false text
  literals : text.count '\x27' % 2 = 0
  nested : Nested 0 (outsideLiterals false text)
  balanced : (outsideLiterals false text).count '(' = (outsideLiterals false text).count ')'
  typed : isBareName (trim text) = false

example : ∃ d : Definition, d.text = "p numeric(10, 2) default ', --)' check (f(p, 0))".toList :=
  ⟨⟨_, by decide, by decide, by decide +kernel, by decide, by decide +kernel, by decide +kernel,
    by decide +kernel⟩, rfl⟩

/-! ## Scans over a definition -/

/-- Whether a scan is inside a literal behind a text. -/
def literalBehind (literal : Bool) (t : List Char) : Bool := literal ^^ (t.count '\x27' % 2 == 1)

theorem literalBehind_quote (literal : Bool) (t : List Char) :
    literalBehind literal ('\x27' :: t) = literalBehind (!literal) t := by
  unfold literalBehind
  rw [List.count_cons_self]
  have hcases : t.count '\x27' % 2 = 0 ∨ t.count '\x27' % 2 = 1 := by omega
  rcases hcases with h | h
  · have hnext : (t.count '\x27' + 1) % 2 = 1 := by omega
    cases literal <;> simp [h, hnext]
  · have hnext : (t.count '\x27' + 1) % 2 = 0 := by omega
    cases literal <;> simp [h, hnext]

theorem literalBehind_of_ne {c : Char} (hc : c ≠ '\x27') (literal : Bool) (t : List Char) :
    literalBehind literal (c :: t) = literalBehind literal t := by
  unfold literalBehind
  rw [List.count_cons_of_ne hc]

theorem Nested.tail {depth depth' : Nat} {c : Char} {t : List Char} (h : Nested depth (c :: t))
    (hdepth : depth' + [c].count ')' = depth + [c].count '(') : Nested depth' t := by
  have hcount (x : Char) (p : List Char) : (c :: p).count x = [c].count x + p.count x := by
    rw [← List.singleton_append, List.count_append]
  constructor
  · intro p hp
    have hclosed := h.closed (c :: p) (List.cons_prefix_cons.2 ⟨rfl, hp⟩)
    rw [hcount ')' p, hcount '(' p] at hclosed
    omega
  · intro p hp
    have henclosed := h.enclosed (c :: p) (List.cons_prefix_cons.2 ⟨rfl, hp⟩)
    rw [hcount ')' p, hcount '(' p] at henclosed
    omega

/-- A text with nested commas stays in one piece with what follows it, which is cut as its parentheses
and literals leave it. -/
theorem splitFrom_append {literal : Bool} {depth : Nat} {d : List Char}
    (h : Nested depth (outsideLiterals literal d)) (t : List Char) :
    splitFrom literal depth (d ++ t) = d.foldr consFirst
      (splitFrom (literalBehind literal d) (depth + (outsideLiterals literal d).count '(' -
        (outsideLiterals literal d).count ')') t) := by
  induction d generalizing literal depth with
  | nil =>
    show splitFrom literal depth t = splitFrom (literal ^^ false) (depth + 0 - 0) t
    rw [Bool.xor_false, Nat.add_zero, Nat.sub_zero]
  | cons c d ih =>
    rw [List.cons_append, List.foldr_cons, splitFrom]
    unfold outsideLiterals at h ⊢
    by_cases hquote : c = '\x27'
    · subst hquote
      simp only [if_true] at h ⊢
      rw [literalBehind_quote, ih (h.tail rfl), List.count_cons_of_ne (by decide),
        List.count_cons_of_ne (by decide)]
    rw [literalBehind_of_ne hquote]
    simp only [hquote, if_false] at h ⊢
    cases literal with
    | true =>
      simp only [if_true] at h ⊢
      rw [ih h]
    | false =>
      simp only [Bool.false_eq_true, if_false] at h ⊢
      by_cases hopen : c = '('
      · subst hopen
        have hdepth : depth + 1 + [('(' : Char)].count ')' = depth + [('(' : Char)].count '(' := rfl
        have hsum : ∀ a b, depth + 1 + a - b = depth + (a + 1) - b := by omega
        rw [if_pos rfl, ih (h.tail hdepth), List.count_cons_self, List.count_cons_of_ne (by decide), hsum]
      by_cases hclose : c = ')'
      · subst hclose
        have hone : 1 ≤ depth := h.closed [')'] ⟨_, rfl⟩
        have hdepth : depth - 1 + [(')' : Char)].count ')' = depth + [(')' : Char)].count '(' := by
          show depth - 1 + 1 = depth + 0
          omega
        have hsum : ∀ a b, depth - 1 + a - b = depth + a - (b + 1) := by omega
        rw [if_neg hopen, if_pos rfl, ih (h.tail hdepth), List.count_cons_self,
          List.count_cons_of_ne (by decide), hsum]
      have hcomma : ¬ (c = ',' ∧ depth = 0) := by
        rintro ⟨rfl, rfl⟩
        exact absurd (h.enclosed [] ⟨_, rfl⟩) (by decide)
      have hdepth : depth + [c].count ')' = depth + [c].count '(' := by
        rw [List.count_singleton, List.count_singleton]
        simp [hopen, hclose]
      rw [if_neg hopen, if_neg hclose, if_neg hcomma, ih (h.tail hdepth), List.count_cons_of_ne hopen,
        List.count_cons_of_ne hclose]

/-- Without two dashes outside literals nothing is dropped, unless what follows brings the second. -/
theorem stripCommentFrom_append {literal : Bool} {d t : List Char}
    (h : ¬ ['-', '-'] <:+: outsideLiterals literal d) (ht : t.head? ≠ some '-') :
    stripCommentFrom literal (d ++ t) = d ++ stripCommentFrom (literalBehind literal d) t := by
  induction d generalizing literal with
  | nil =>
    show stripCommentFrom literal t = stripCommentFrom (literal ^^ false) t
    rw [Bool.xor_false]
  | cons c d ih =>
    rw [List.cons_append, List.cons_append, stripCommentFrom]
    unfold outsideLiterals at h
    by_cases hquote : c = '\x27'
    · subst hquote
      simp only [if_true] at h ⊢
      rw [literalBehind_quote, ih fun hinfix => h (List.infix_cons hinfix)]
    rw [literalBehind_of_ne hquote]
    simp only [hquote, if_false] at h ⊢
    cases literal with
    | true =>
      simp only [if_true] at h
      rw [ih h]
      rfl
    | false =>
      simp only [Bool.false_eq_true, if_false] at h
      have hopens : ¬ (c = '-' ∧ (d ++ t).head? = some '-') := by
        rintro ⟨rfl, hhead⟩
        cases d with
        | nil => exact ht hhead
        | cons e d =>
          obtain rfl : e = '-' := Option.some.inj hhead
          exact h ⟨[], outsideLiterals false d, by simp [outsideLiterals]⟩
      rw [ih fun hinfix => h (List.infix_cons hinfix)]
      simp only [Bool.not_false, Bool.true_and, Bool.and_eq_true, beq_iff_eq, hopens, if_false]

namespace Definition
variable (d : Definition)

theorem literalBehind_text : literalBehind false d.text = false := by
  unfold literalBehind
  rw [d.literals]
  rfl

theorem stripComment_append {t : List Char} (ht : t.head? ≠ some '-') :
    stripComment (d.text ++ t) = d.text ++ stripComment t := by
  unfold stripComment
  rw [stripCommentFrom_append d.uncommented ht, d.literalBehind_text]

theorem splitTopLevel_append (t : List Char) :
    splitTopLevel (d.text ++ t) = d.text.foldr consFirst (splitTopLevel t) := by
  unfold splitTopLevel
  rw [splitFrom_append d.nested, d.literalBehind_text, Nat.zero_add, d.balanced, Nat.sub_self]

theorem splitTopLevel_comma (t : List Char) :
    splitTopLevel (d.text ++ ',' :: t) = d.text :: splitTopLevel t := by
  have hcomma : splitTopLevel (',' :: t) = [] :: splitTopLevel t := rfl
  rw [d.splitTopLevel_append, hcomma, foldr_consFirst, List.append_nil]

theorem splitTopLevel_text : splitTopLevel d.text = [d.text] := by
  have hend := d.splitTopLevel_append []
  rw [List.append_nil] at hend
  rw [hend, splitTopLevel, splitFrom, foldr_consFirst, List.append_nil]

/-! ## Definitions with their commas -/

theorem isBareName_text : isBareName d.text = false := by
  by_contra hbare
  rw [Bool.not_eq_false] at hbare
  have htyped := d.typed
  unfold isBareName at hbare htyped
  cases hname : leading isFoldedStart isFoldedPart (trimStart d.text) with
  | none =>
    rw [hname] at hbare
    cases hbare
  | some found =>
    obtain ⟨name, rest⟩ := found
    rw [hname] at hbare
    obtain rfl : rest = [] := List.isEmpty_iff.1 hbare
    obtain ⟨c, cs, rfl, hstart, hparts, -, htext⟩ := leading_eq_some_iff.1 hname
    rw [List.append_nil] at htext
    have hsolid : ∀ e ∈ c :: cs, isBlank e = false := by
      intro e he
      rcases List.mem_cons.1 he with rfl | he
      · apply not_isBlank_of_isFoldedPart
        unfold isFoldedStart at hstart
        unfold isFoldedPart
        rcases (Bool.or_eq_true _ _).mp hstart with h | h
        · rw [isNamePart_of_isNameStart h, Bool.true_or]
        · rw [h, Bool.or_true]
      · exact not_isBlank_of_isFoldedPart (hparts e he)
    have hkept : trim d.text = c :: cs := by
      have hend := trimEnd_append_of_not_blank hsolid []
      rw [List.append_nil] at hend
      rw [trim, htext, hend]
      exact List.append_nil _
    rw [hkept, trimStart_cons_of_not_blank (hsolid c (by simp)), ← htext, hname] at htyped
    cases htyped

/-- The comma that is left on a definition does not change its column. -/
theorem columnName_append_comma : columnName (d.text ++ [',']) = columnName d.text := by
  by_cases hblank : ∀ c ∈ d.text, isBlank c
  · rw [columnName_of_blank_append hblank, columnName_of_blank hblank]
    rfl
  simp only [not_forall, Bool.not_eq_true, exists_prop] at hblank
  apply columnName_append (.inr rfl) hblank d.isBareName_text
  rw [Bool.eq_iff_iff, isComment, isComment, List.isPrefixOf_iff_prefix, List.isPrefixOf_iff_prefix]
  constructor
  · rintro ⟨x, hx⟩
    rcases prefix_or_reaches hx with h | ⟨b, hb, -⟩
    · exact prefix_trimEnd h (by rintro c ⟨⟩; decide)
    · have hmem : ',' ∈ "--".toList := by rw [hb]; simp
      exact absurd hmem (by decide)
  · intro h
    have htrimmed := trimEnd_prefix_self (trimStart d.text)
    exact (h.trans htrimmed).trans (List.prefix_append _ [','])

end Definition

/-! ## Bodies -/

/-- Definitions with a comma and a gap between them. -/
def joined (gap : List Char) (ds : List Definition) : List Char :=
  (',' :: gap).intercalate (ds.map Definition.text)

/-- A body on one line. -/
def oneLine (ds : List Definition) : List Char := joined [' '] ds

/-- A body with each definition on a line of its own. -/
def onLines (ds : List Definition) : List Char := '\n' :: (joined ['\n'] ds ++ ['\n'])

/-- The columns that definitions declare, each taken by itself. -/
def declaredColumns (ds : List Definition) : List String :=
  (ds.map Definition.text).filterMap columnName

theorem joined_singleton (gap : List Char) (d : Definition) : joined gap [d] = d.text := by
  unfold joined
  exact List.intercalate_singleton

theorem joined_cons_cons (gap : List Char) (d e : Definition) (ds : List Definition) :
    joined gap (d :: e :: ds) = d.text ++ ',' :: (gap ++ joined gap (e :: ds)) := by
  unfold joined
  rw [List.map_cons, List.map_cons, List.intercalate_cons_cons, List.append_assoc, List.cons_append]

section Bodies
variable {gap b : List Char} (hgap : ∀ c ∈ gap, isBlank c) (hb : ∀ c ∈ b, isBlank c)
include hgap

theorem splitColumns_joined (ds : List Definition) :
    (splitTopLevel (joined gap ds)).filterMap columnName = declaredColumns ds := by
  unfold declaredColumns
  induction ds with
  | nil =>
    show [[]].filterMap columnName = []
    rw [List.filterMap_cons, columnName_of_blank (by simp)]
    rfl
  | cons d ds ih =>
    cases ds with
    | nil =>
      rw [joined_singleton, d.splitTopLevel_text]
      rfl
    | cons e ds =>
      rw [joined_cons_cons, d.splitTopLevel_comma, List.map_cons, List.filterMap_cons,
        List.filterMap_cons, splitColumns_of_blank_append hgap, ih]

include hb

theorem stripComment_joined (ds : List Definition) :
    stripComment (joined gap ds ++ b) = joined gap ds ++ b := by
  have hgapped : ∀ t, stripComment (gap ++ t) = gap ++ stripComment t :=
    stripCommentFrom_plain_append (.of_blank hgap) false
  have hend : stripComment b = b := by
    have hplain := stripCommentFrom_plain_append (.of_blank hb) false []
    rw [List.append_nil] at hplain
    exact hplain.trans (List.append_nil b)
  have hdash : b.head? ≠ some '-' := fun hhead =>
    absurd (hb '-' (List.mem_of_mem_head? hhead)) (by decide)
  induction ds with
  | nil => exact hend
  | cons d ds ih =>
    cases ds with
    | nil => rw [joined_singleton, d.stripComment_append hdash, hend]
    | cons e ds =>
      have hcomma : ∀ t, stripComment (',' :: t) = ',' :: stripComment t := fun t => rfl
      rw [joined_cons_cons, List.append_assoc, List.cons_append, List.append_assoc,
        d.stripComment_append (by simp), hcomma, hgapped, ih]

/-- No terminator lies in a body, not even across a comma. -/
theorem not_infix_joined (ds : List Definition) : ¬ [')', ';'] <:+: joined gap ds ++ b := by
  have hout : ∀ t : List Char, (∀ c ∈ t, isBlank c) → ')' ∉ t ∧ ';' ∉ t := by
    intro t ht
    constructor
    · exact fun hmem => absurd (ht ')' hmem) (by decide)
    · exact fun hmem => absurd (ht ';' hmem) (by decide)
  induction ds with
  | nil => exact fun h => (hout b hb).1 (h.subset (by simp))
  | cons d ds ih =>
    intro h
    cases ds with
    | nil =>
      rw [joined_singleton] at h
      cases b with
      | nil =>
        rw [List.append_nil] at h
        exact d.unterminated h
      | cons c b =>
        obtain ⟨hclose, hsemicolon⟩ := hout (c :: b) hb
        rw [List.mem_cons, not_or] at hclose hsemicolon
        rcases pair_infix_append_cons (Ne.symm hclose.1) (Ne.symm hsemicolon.1) h with h | h
        · exact d.unterminated h
        · exact hclose.2 (h.subset (by simp))
    | cons e ds =>
      rw [joined_cons_cons, List.append_assoc, List.cons_append, List.append_assoc] at h
      rcases pair_infix_append_cons (by decide) (by decide) h with h | h
      · exact d.unterminated h
      · exact ih (infix_of_infix_append (hout gap hgap).1 h)

end Bodies

theorem lineColumns_onLines (ds : List Definition) :
    lineColumns (onLines ds) = declaredColumns ds := by
  have hbreak : ∀ c ∈ ['\n'], isBlank c := List.forall_mem_singleton.2 (by decide)
  have hlines : ∀ ds : List Definition,
      lineColumns (joined ['\n'] ds ++ ['\n']) = declaredColumns ds := by
    intro ds
    unfold declaredColumns
    induction ds with
    | nil => exact lineColumns_of_blank hbreak
    | cons d ds ih =>
      cases ds with
      | nil =>
        rw [joined_singleton, lineColumns, lines, pieces_append_cons d.one_line, List.map_cons,
          List.filterMap_cons, List.filterMap_cons]
        have hempty : lineColumns [] = [] := lineColumns_of_blank (by simp)
        rw [lineColumns, lines] at hempty
        rw [hempty]
        rfl
      | cons e ds =>
        have hline : '\n' ∉ d.text ++ [','] := by simp [d.one_line]
        have htext : joined ['\n'] (d :: e :: ds) ++ ['\n'] =
            (d.text ++ [',']) ++ '\n' :: (joined ['\n'] (e :: ds) ++ ['\n']) := by
          rw [joined_cons_cons]
          simp
        rw [lineColumns, lines] at ih
        rw [htext, lineColumns, lines, pieces_append_cons hline, List.map_cons, List.filterMap_cons,
          List.filterMap_cons, d.columnName_append_comma, ih]
  exact (lineColumns_of_blank_append hbreak _).trans (hlines ds)

theorem bodyColumns_oneLine (ds : List Definition) :
    bodyColumns (oneLine ds) = declaredColumns ds := by
  have hgap : ∀ c ∈ [' '], isBlank c := List.forall_mem_singleton.2 (by decide)
  have hline : ∀ ds : List Definition, '\n' ∉ joined [' '] ds := by
    intro ds
    induction ds with
    | nil => exact List.not_mem_nil
    | cons d ds ih =>
      cases ds with
      | nil =>
        rw [joined_singleton]
        exact d.one_line
      | cons e ds =>
        rw [joined_cons_cons]
        simp [d.one_line, ih]
  have hsingle : '\n' ∉ trim (oneLine ds) := fun hmem => hline ds (mem_of_mem_trim hmem)
  have hkept := stripComment_joined (b := []) hgap (by simp) ds
  rw [List.append_nil] at hkept
  rw [bodyColumns, definitions_of_single hsingle, oneLine, hkept, splitColumns_joined hgap]

/-- With at most one line that is not blank, a body is cut at its commas in spite of its line feeds. -/
theorem bodyColumns_onLines (ds : List Definition) :
    bodyColumns (onLines ds) = declaredColumns ds := by
  have hbreak : ∀ c ∈ ['\n'], isBlank c := List.forall_mem_singleton.2 (by decide)
  by_cases hseveral : '\n' ∈ trim (onLines ds)
  · rw [bodyColumns, definitions_of_several hseveral]
    exact lineColumns_onLines ds
  · have hkept : stripComment (onLines ds) = onLines ds :=
      congrArg (List.cons '\n') (stripComment_joined hbreak hbreak ds)
    have hcut := splitColumns_of_blank_append hbreak (joined ['\n'] ds ++ ['\n'])
    rw [splitColumns_append_of_blank hbreak, splitColumns_joined hbreak] at hcut
    rw [bodyColumns, definitions_of_single hseveral, hkept]
    exact hcut

/-! ## Tables -/

/-- The declaration of a table with a given body. -/
def tableText (name : Identifier) (body : List Char) : String :=
  String.ofList ("CREATE TABLE ".toList ++ (name.text ++ (" (".toList ++ (body ++ ");".toList))))

theorem parse_tableText (name : Identifier) {body : List Char} (h : ¬ [')', ';'] <:+: body) :
    Catalog.parse (tableText name body) =
      ⟨NameMap.empty.insert (String.ofList name.text) (NameSet.ofList (bodyColumns body))⟩ := by
  have hspace : IsBlanks [' '] := ⟨List.cons_ne_nil _ _, List.all_eq_true.1 rfl⟩
  have hname : IsName name.text := ⟨name.first, name.others, rfl, name.start, name.parts⟩
  have hheader : IsHeader name.text ("CREATE TABLE ".toList ++ (name.text ++ " (".toList)) :=
    .plain hspace hspace hname hspace.blank
  have hblock : IsBlock ⟨String.ofList name.text, body⟩
      ("CREATE TABLE ".toList ++ (name.text ++ " (".toList) ++ (body ++ [')', ';'])) :=
    ⟨name.text, _, hheader, rfl, h, rfl⟩
  have hfound := tableBlocks_append hblock []
  have htext : (tableText name body).toList =
      "CREATE TABLE ".toList ++ (name.text ++ " (".toList) ++ (body ++ [')', ';']) := by
    have hclose : ");".toList = [')', ';'] := rfl
    unfold tableText
    simp only [String.toList_ofList, hclose, List.append_assoc]
  rw [List.append_nil] at hfound
  rw [Catalog.parse, htext, hfound]
  rfl

/-- A table has the same columns in both layouts: those that its definitions declare. -/
theorem parse_oneLine_eq_parse_onLines (name : Identifier) (ds : List Definition) :
    Catalog.parse (tableText name (oneLine ds)) = Catalog.parse (tableText name (onLines ds)) ∧
      ∀ table, (Catalog.parse (tableText name (oneLine ds))).columns? table =
        if table = String.ofList name.text then some (NameSet.ofList (declaredColumns ds))
        else none := by
  have hbreak : ∀ c ∈ ['\n'], isBlank c := List.forall_mem_singleton.2 (by decide)
  have hspace : ∀ c ∈ [' '], isBlank c := List.forall_mem_singleton.2 (by decide)
  have hone : ¬ [')', ';'] <:+: oneLine ds := by
    have hbody := not_infix_joined (b := []) hspace (by simp) ds
    rw [List.append_nil] at hbody
    exact hbody
  have hlines : ¬ [')', ';'] <:+: onLines ds := by
    intro h
    have hfront : onLines ds = ['\n'] ++ (joined ['\n'] ds ++ ['\n']) := rfl
    rw [hfront] at h
    exact not_infix_joined hbreak hbreak ds (infix_of_infix_append (by decide) h)
  rw [parse_tableText name hone, parse_tableText name hlines, bodyColumns_oneLine,
    bodyColumns_onLines]
  refine ⟨rfl, fun table => ?_⟩
  unfold Catalog.columns?
  rw [NameMap.find?_insert, NameMap.find?_empty]

end ColumnAudit.Schema
