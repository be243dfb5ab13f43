import ColumnAudit.Proofs.Names
import ColumnAudit.Proofs.Schema.Header
import ColumnAudit.Schema.Catalog

/-! # Schemas of declarations

A `Declaration` is a table declaration over several lines, with any text in front of it that does not
hold `CREATE`, and `LineDeclares` says which column a line of its body declares. `Declaration.text`
writes a declaration down, and the catalog reads it back: the line classifier finds the declared column
of each line (`columnName_of_declares`), a block ends at its own terminator and the search goes on
there (`tableBlocks_text_append`), and of several declarations of a table the last one is in force
(`columns?_parse_schemaText`).
-/

namespace ColumnAudit.Schema
open Text
set_option autoImplicit false

/-! ## Identifiers -/

/-- An ASCII identifier. -/
structure Identifier where
  first : Char
  others : List Char
  start : isNameStart first
  parts : ∀ c ∈ others, isNamePart c

def Identifier.text (name : Identifier) : List Char := name.first :: name.others

theorem Identifier.isNamePart_text (name : Identifier) : ∀ c ∈ name.text, isNamePart c := by
  intro c hc
  rcases List.mem_cons.1 hc with rfl | hc
  · exact isNamePart_of_isNameStart name.start
  · exact name.parts c hc

/-- A longest stretch of identifier characters is read off. -/
theorem leading_identifier {start part : Char → Bool} (name : Identifier)
    (hstart : start name.first) (hparts : ∀ c ∈ name.others, part c) {t : List Char}
    (ht : ∀ c ∈ t.head?, part c = false) :
    leading start part (name.text ++ t) = some (name.text, t) :=
  leading_eq_some_iff.2 ⟨name.first, name.others, rfl, hstart, hparts, ht, rfl⟩

/-! ## Lines -/

/-- Whether a line, trimmed and in capitals, starts with a word that opens a constraint. -/
def OpensConstraint (line : List Char) : Prop :=
  ∃ opening ∈ constraintOpenings, opening.toList <+: (trim line).map Char.toUpper

/-- Which column a line of a table body declares. -/
inductive LineDeclares : List Char → Option String → Prop where
  | blank {line : List Char} (h : ∀ c ∈ line, isBlank c) : LineDeclares line none
  | comment {indent rest : List Char} (h : ∀ c ∈ indent, isBlank c) :
    LineDeclares (indent ++ '-' :: '-' :: rest) none
  | constraint {line : List Char} (h : OpensConstraint line) : LineDeclares line none
  | column {indent rest : List Char} {name : Identifier} {c : Char} (h : ∀ d ∈ indent, isBlank d)
    (hc : isBlank c) (hopen : ¬ OpensConstraint (indent ++ (name.text ++ c :: rest))) :
    LineDeclares (indent ++ (name.text ++ c :: rest)) (some (String.ofList name.text))

theorem isConstraint_iff {line : List Char} : isConstraint (trim line) ↔ OpensConstraint line := by
  simp only [isConstraint, OpensConstraint, List.any_eq_true, List.isPrefixOf_iff_prefix]

theorem columnName_of_isConstraint {line : List Char} (h : isConstraint (trim line)) :
    columnName line = none := by
  simp only [columnName, h, Bool.or_true, if_true]

theorem trim_identifier_append (name : Identifier) (t : List Char) :
    trim (name.text ++ t) = name.text ++ trimEnd t := by
  have hblank : ∀ c ∈ name.text, isBlank c = false := fun c hc =>
    not_isBlank_of_isNamePart (name.isNamePart_text c hc)
  rw [Identifier.text, List.cons_append, trim_cons_of_not_blank (hblank _ (by simp [Identifier.text])),
    trimEnd_append_of_not_blank fun c hc => hblank c (List.mem_cons_of_mem _ hc)]
  rfl

theorem isBlank_head?_trimEnd {c : Char} (hc : isBlank c) (t : List Char) :
    ∀ d ∈ (trimEnd (c :: t)).head?, isBlank d := by
  intro d hd
  rcases head?_trimEnd_cons c t with hhead | ⟨-, hnil⟩
  · rw [hhead] at hd
    exact Option.some.inj hd ▸ hc
  · rw [hnil] at hd
    cases hd

theorem isFoldedPart_of_isBlank {c : Char} (h : isBlank c) : isFoldedPart c = false := by
  have hfold : foldsToLetter c = false := by
    rw [foldsToLetter, Bool.or_eq_false_iff, beq_eq_false_iff_ne, beq_eq_false_iff_ne]
    constructor
    · rintro rfl
      exact absurd h (by decide)
    · rintro rfl
      exact absurd h (by decide)
  rw [isFoldedPart, not_isNamePart_of_isBlank h, hfold, Bool.or_false]

theorem columnName_column {indent rest : List Char} {name : Identifier} {c : Char}
    (h : ∀ d ∈ indent, isBlank d) (hc : isBlank c)
    (hopen : ¬ OpensConstraint (indent ++ (name.text ++ c :: rest))) :
    columnName (indent ++ (name.text ++ c :: rest)) = some (String.ofList name.text) := by
  have htrim : trim (indent ++ (name.text ++ c :: rest)) = name.text ++ trimEnd (c :: rest) := by
    rw [trim_append_of_blank h, trim_identifier_append]
  have hcomment : isComment (name.text ++ trimEnd (c :: rest)) = false := by
    have hdash : '-' ≠ name.first := fun heq => absurd (heq ▸ name.start) (by decide)
    simp [isComment, Identifier.text, List.isPrefixOf, hdash]
  have hconstraint : isConstraint (name.text ++ trimEnd (c :: rest)) = false := by
    rw [← htrim, ← Bool.not_eq_true, isConstraint_iff]
    exact hopen
  have hblank := isBlank_head?_trimEnd hc rest
  have hstart : isFoldedStart name.first := by rw [isFoldedStart, name.start, Bool.true_or]
  have hparts : ∀ d ∈ name.others, isFoldedPart d := fun d hd => by
    rw [isFoldedPart, name.parts d hd, Bool.true_or]
  have hname := leading_identifier name hstart hparts
    fun d hd => isFoldedPart_of_isBlank (hblank d hd)
  have hall : (trimEnd (c :: rest)).head?.all isBlank := by
    cases hhead : (trimEnd (c :: rest)).head? with
    | none => rfl
    | some d => exact hblank d hhead
  simp only [columnName, htrim, hcomment, hconstraint, hname, hall, Bool.or_false,
    Bool.false_eq_true, if_false, if_true]

/-- The column of a line is the one that it declares. -/
theorem columnName_of_declares {line : List Char} {column : Option String}
    (h : LineDeclares line column) : columnName line = column := by
  cases h with
  | blank h =>
    rw [columnName, trim_eq_nil_of_blank h]
    rfl
  | @comment indent rest h =>
    have htrim : trim (indent ++ '-' :: '-' :: rest) = '-' :: '-' :: trimEnd rest := by
      rw [trim_append_of_blank h, trim_cons_of_not_blank (by decide),
        trimEnd_cons_of_not_blank (by decide)]
    have hcomment : isComment ('-' :: '-' :: trimEnd rest) := rfl
    simp only [columnName, htrim, hcomment, Bool.true_or, if_true]
  | constraint h => exact columnName_of_isConstraint (isConstraint_iff.2 h)
  | column h hc hopen => exact columnName_column h hc hopen

/-! ## Bodies -/

/-- A line of a table body with the column that it declares. -/
structure BodyLine where
  text : List Char
  column : Option String
  declares : LineDeclares text column
  single : '\n' ∉ text
  inside : ¬ [')', ';'] <:+: text

/-- A table body: its lines, each with the line feed behind it. -/
def bodyText (body : List BodyLine) : List Char := '\n' :: body.flatMap fun l => l.text ++ ['\n']

theorem lines_bodyText (body : List BodyLine) :
    lines (bodyText body) = [] :: (body.map BodyLine.text ++ [[]]) := by
  have hlines : ∀ body : List BodyLine, lines (body.flatMap fun l => l.text ++ ['\n']) =
      body.map BodyLine.text ++ [[]] := by
    intro body
    induction body with
    | nil => rfl
    | cons l body ih =>
      rw [List.flatMap_cons, List.append_assoc, List.singleton_append, lines,
        pieces_append_cons l.single]
      exact congrArg (List.cons l.text) ih
  have hfront : lines (bodyText body) = [] :: lines (body.flatMap fun l => l.text ++ ['\n']) :=
    pieces_append_cons List.not_mem_nil _
  rw [hfront, hlines]

/-- No terminator lies in a body, not even across a line feed. -/
theorem not_infix_bodyText (body : List BodyLine) : ¬ [')', ';'] <:+: bodyText body := by
  have hlines : ¬ [')', ';'] <:+: body.flatMap fun l => l.text ++ ['\n'] := by
    induction body with
    | nil => simp
    | cons l body ih =>
      intro h
      rw [List.flatMap_cons, List.append_assoc, List.singleton_append] at h
      rcases pair_infix_append_cons (by decide) (by decide) h with h | h
      · exact l.inside h
      · exact ih h
  intro h
  rcases pair_infix_append_cons (a := []) (by decide) (by decide) h with h | h
  · exact absurd h (by simp)
  · exact hlines h

/-- Two lines that are not blank have a line feed between them that trimming keeps. -/
theorem newline_mem_trim_bodyText {body : List BodyLine}
    (h : 2 ≤ (body.filter fun l => !l.text.all isBlank).length) :
    '\n' ∈ trim (bodyText body) := by
  have hsolid : ∀ {l : BodyLine}, (!l.text.all isBlank) = true →
      ∃ c ∈ l.text, isBlank c = false := by
    intro l hl
    simpa using hl
  cases hfilter : body.filter fun l => !l.text.all isBlank with
  | nil =>
    rw [hfilter] at h
    exact absurd h (by simp)
  | cons x others =>
    obtain ⟨front, back, rfl, -, hx, hback⟩ := List.filter_eq_cons_iff.1 hfilter
    cases others with
    | nil =>
      rw [hfilter] at h
      exact absurd h (by simp)
    | cons y others =>
      obtain ⟨hy, hysolid⟩ := List.mem_filter.1 (hback ▸ List.mem_cons_self : y ∈ back.filter _)
      obtain ⟨c, hc, hcblank⟩ := hsolid hx
      obtain ⟨d, hd, hdblank⟩ := hsolid hysolid
      have htext : bodyText (front ++ x :: back) =
          ('\n' :: front.flatMap (fun l => l.text ++ ['\n']) ++ x.text) ++
            '\n' :: back.flatMap fun l => l.text ++ ['\n'] := by
        simp [bodyText]
      rw [htext]
      refine mem_trim_of_between ⟨c, by simp [hc], hcblank⟩ ⟨d, ?_, hdblank⟩ '\n'
      exact List.mem_flatMap.2 ⟨y, hy, List.mem_append_left _ hd⟩

theorem bodyColumns_bodyText {body : List BodyLine}
    (h : 2 ≤ (body.filter fun l => !l.text.all isBlank).length) :
    bodyColumns (bodyText body) = body.filterMap BodyLine.column := by
  have hempty : columnName [] = none := columnName_of_declares (.blank (by simp))
  have hlines : (body.map BodyLine.text).filterMap columnName = body.filterMap BodyLine.column := by
    rw [List.filterMap_map]
    exact List.filterMap_congr fun l _ => columnName_of_declares l.declares
  rw [bodyColumns, definitions, if_pos (List.contains_iff_mem.2 (newline_mem_trim_bodyText h)),
    lines_bodyText, List.filterMap_cons, hempty, List.filterMap_append, hlines, List.filterMap_cons,
    hempty]
  exact List.append_nil _

/-! ## Declarations -/

/-- Any text in which no declaration can start. -/
structure QuietText where
  text : List Char
  quiet : ¬ "CREATE".toList <:+: text

/-- A table declaration over several lines, with the text in front of it. -/
structure Declaration where
  lead : QuietText
  /-- Whether `IF NOT EXISTS` stands before the name. -/
  guarded : Bool
  name : Identifier
  body : List BodyLine
  several : 2 ≤ (body.filter fun l => !l.text.all isBlank).length

namespace Declaration

def guard (d : Declaration) : List Char := if d.guarded then "IF NOT EXISTS ".toList else []

/-- The declaration up to its opening parenthesis. -/
def header (d : Declaration) : List Char :=
  "CREATE TABLE ".toList ++ (d.guard ++ (d.name.text ++ " (".toList))

def text (d : Declaration) : List Char :=
  d.lead.text ++ (d.header ++ (bodyText d.body ++ ");".toList))

/-- The columns that the lines of the body declare. -/
def columns (d : Declaration) : NameSet := NameSet.ofList (d.body.filterMap BodyLine.column)

end Declaration

theorem isHeader_header (d : Declaration) : IsHeader d.name.text d.header := by
  have hspace : IsBlanks [' '] := ⟨List.cons_ne_nil _ _, List.all_eq_true.1 rfl⟩
  have hname : IsName d.name.text :=
    ⟨d.name.first, d.name.others, rfl, d.name.start, d.name.parts⟩
  unfold Declaration.header Declaration.guard
  split
  · exact .guarded hspace hspace (.words hspace hspace hspace) hname hspace.blank
  · exact .plain hspace hspace hname hspace.blank

/-! ### Blocks -/

theorem isBlock_declaration (d : Declaration) :
    IsBlock ⟨String.ofList d.name.text, bodyText d.body⟩
      (d.header ++ (bodyText d.body ++ ");".toList)) :=
  ⟨d.name.text, d.header, isHeader_header d, rfl, not_infix_bodyText d.body, rfl⟩

/-- No block starts where there is no `CREATE`. -/
theorem tableBlock_eq_none {t : List Char} (h : ¬ "CREATE".toList <+: t) : tableBlock t = none := by
  rw [tableBlock, blockHeader, behind_eq_none_iff.2 h]
  rfl

theorem tableBlocks_quiet (t : QuietText) : tableBlocks t.text = [] := by
  have hskip := occurrences_append_of_none (p := tableBlock) (a := t.text) (b := []) fun s _ hs =>
    tableBlock_eq_none fun hprefix => t.quiet (by
      rw [List.append_nil] at hprefix
      exact hprefix.isInfix.trans hs.isInfix)
  rw [List.append_nil] at hskip
  exact hskip

/-- The block of a declaration is found, and the search goes on behind it. -/
theorem tableBlocks_text_append (d : Declaration) (t : List Char) :
    tableBlocks (d.text ++ t) =
      ⟨String.ofList d.name.text, bodyText d.body⟩ :: tableBlocks t := by
  have hlead : ∀ s, s ≠ [] → s <:+ d.lead.text →
      tableBlock (s ++ (d.header ++ (bodyText d.body ++ ");".toList) ++ t)) = none := by
    intro s hs hsuffix
    refine tableBlock_eq_none fun hprefix => ?_
    cases s with
    | nil => exact absurd rfl hs
    | cons c s =>
      -- Only the first letter of the word is a `C`, so it does not reach into the declaration.
      have hcreate : "CREATE".toList = 'C' :: "REATE".toList := rfl
      have hheader : ∃ u, d.header ++ (bodyText d.body ++ ");".toList) ++ t = 'C' :: u := ⟨_, rfl⟩
      obtain ⟨u, hu⟩ := hheader
      rw [hu, hcreate, List.cons_append, List.cons_prefix_cons] at hprefix
      obtain ⟨rfl, hrest⟩ := hprefix
      have hinside := prefix_of_prefix_append_cons (by decide) hrest
      have hword : "CREATE".toList <+: 'C' :: s := by
        rw [hcreate, List.cons_prefix_cons]
        exact ⟨rfl, hinside⟩
      exact d.lead.quiet (hword.isInfix.trans hsuffix.isInfix)
  rw [tableBlocks, Declaration.text, List.append_assoc, occurrences_append_of_none hlead]
  exact tableBlocks_append (isBlock_declaration d) t

/-! ## Schemas -/

/-- Declarations one after the other, and what stands behind the last. -/
def schemaText (ds : List Declaration) (tail : QuietText) : List Char :=
  ds.flatMap Declaration.text ++ tail.text

theorem tableBlocks_schemaText (ds : List Declaration) (tail : QuietText) :
    tableBlocks (schemaText ds tail) =
      ds.map fun d => ⟨String.ofList d.name.text, bodyText d.body⟩ := by
  induction ds with
  | nil => exact tableBlocks_quiet tail
  | cons d ds ih =>
    rw [schemaText, List.flatMap_cons, List.append_assoc, tableBlocks_text_append, List.map_cons]
    exact congrArg (List.cons _) ih

/-- The catalog of declarations holds the declared tables and no other, each with the columns of its
last declaration. -/
theorem columns?_parse_schemaText (ds : List Declaration) (tail : QuietText) (table : String) :
    (Catalog.parse (String.ofList (schemaText ds tail))).columns? table =
      (ds.reverse.find? fun d => String.ofList d.name.text == table).map Declaration.columns := by
  have hcolumns : ∀ d : Declaration, NameSet.ofList (bodyColumns (bodyText d.body)) = d.columns :=
    fun d => congrArg NameSet.ofList (bodyColumns_bodyText d.several)
  rw [Catalog.parse, String.toList_ofList, tableBlocks_schemaText, Catalog.ofBlocks,
    Catalog.columns?, NameMap.find?_ofList, List.map_map, ← List.map_reverse, List.find?_map,
    Option.map_map]
  simp only [Function.comp_def, hcolumns]

/-! ### A table that is declared twice -/

/-- A line of a table body with a column, its type and a comma. -/
def typedLine (name : Identifier) (type : List Char)
    (free : isConstraint (trim (name.text ++ ' ' :: type)) = false) (single : '\n' ∉ name.text ++ type)
    (inside : ¬ [')', ';'] <:+: "  ".toList ++ (name.text ++ ' ' :: type)) : BodyLine where
  text := "  ".toList ++ (name.text ++ ' ' :: type)
  column := some (String.ofList name.text)
  declares := by
    have hindent : ∀ c ∈ "  ".toList, isBlank c := List.all_eq_true.1 (by decide +kernel)
    refine .column hindent (by decide) fun hopen => ?_
    rw [← isConstraint_iff, trim_append_of_blank hindent, free] at hopen
    cases hopen
  single := by
    rw [List.mem_append] at single
    simp only [List.mem_append, List.mem_cons, not_or] at single ⊢
    exact ⟨by decide, single.1, by decide, single.2⟩
  inside

def usersName : Identifier := ⟨'u', "sers".toList, by decide, List.all_eq_true.1 (by decide +kernel)⟩

/-- A first declaration with a comment and a constraint in its body, and a guarded one with capitals in
its place. -/
def usersTwice : List Declaration :=
  [{ lead := ⟨"-- users\n".toList, by decide +kernel⟩
     guarded := false
     name := usersName
     body :=
      [typedLine ⟨'i', "d".toList, by decide, List.all_eq_true.1 (by decide +kernel)⟩ "uuid,".toList (by decide +kernel)
        (by decide +kernel) (by decide +kernel),
       ⟨"  -- kept for good".toList, none, .comment (List.all_eq_true.1 (rfl : "  ".toList.all isBlank)),
        by decide +kernel, by decide +kernel⟩,
       ⟨"  Primary Key (id)".toList, none, .constraint (isConstraint_iff.1 (by decide +kernel)),
        by decide +kernel, by decide +kernel⟩]
     several := by decide +kernel },
   { lead := ⟨"\n".toList, by decide +kernel⟩
     guarded := true
     name := usersName
     body :=
      [typedLine ⟨'E', "_mail".toList, by decide, List.all_eq_true.1 (by decide +kernel)⟩ "text,".toList (by decide +kernel)
        (by decide +kernel) (by decide +kernel),
       typedLine ⟨'a', "ge".toList, by decide, List.all_eq_true.1 (by decide +kernel)⟩ "int".toList (by decide +kernel)
        (by decide +kernel) (by decide +kernel)]
     several := by decide +kernel }]

theorem columns?_parse_usersTwice :
    schemaText usersTwice ⟨"\n".toList, by decide +kernel⟩ =
      ("-- users\nCREATE TABLE users (\n  id uuid,\n  -- kept for good\n  Primary Key (id)\n);" ++
        "\nCREATE TABLE IF NOT EXISTS users (\n  E_mail text,\n  age int\n);\n").toList ∧
    ((Catalog.parse (String.ofList (schemaText usersTwice ⟨"\n".toList, by decide +kernel⟩))).columns?
      "users").map NameSet.toList = some ["E_mail", "age"] := by
  refine ⟨by decide +kernel, ?_⟩
  rw [columns?_parse_schemaText]
  decide +kernel

end ColumnAudit.Schema
