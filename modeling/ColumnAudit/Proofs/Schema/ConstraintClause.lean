import ColumnAudit.Proofs.Schema.CommentedBody

/-! # Constraint clauses by words and by letters

A constraint clause opens with a keyword that is a whole word, or with two words of which the second is
`KEY`, whatever blanks stand between them (`opensClause`). The catalog looks at the letters at the front
of a definition instead: `opensConstraint_iff` says which fronts those are.

The two readings give a definition the same column exactly if no longer word starts with a keyword and
`KEY` stands as a word of its own behind a single space (`columnName_eq_wordColumn_iff`).
-/

namespace ColumnAudit.Schema
open Text
set_option autoImplicit false

/-! ## Definitions by words -/

/-- The keywords that open a clause alone. -/
def loneKeywords : List String := ["CONSTRAINT", "UNIQUE", "CHECK"]

/-- The keywords that open a clause together with the word `KEY`. -/
def pairedKeywords : List String := ["PRIMARY", "FOREIGN"]

/-- A word in capitals. -/
def capitals (word : List Char) : String := String.ofList (word.map Char.toUpper)

/-- The first word of a text that starts with blanks. -/
def wordBehind (t : List Char) : List Char := (skipBlanks t).takeWhile isNamePart

/-- Whether a definition opens a constraint clause, by its first word and the text behind it. -/
def opensClause (word rest : List Char) : Bool :=
  loneKeywords.contains (capitals word) ||
    (pairedKeywords.contains (capitals word) && capitals (wordBehind rest) == "KEY")

/-- The column of a definition: its first word, unless it opens a constraint clause. -/
def wordColumn (word rest : List Char) : Option String :=
  if opensClause word rest then none else some (String.ofList word)

/-- A definition whose letters open a constraint exactly where its words do: its first word is not
merely longer than a keyword, and the letters `KEY` come behind one space exactly if `KEY` is the second
word. -/
structure LettersAreWords (word rest : List Char) : Prop where
  lone : ∀ keyword ∈ loneKeywords, keyword.toList <+: word.map Char.toUpper → capitals word = keyword
  paired : capitals word ∈ pairedKeywords →
    (" KEY".toList <+: rest.map Char.toUpper ↔ capitals (wordBehind rest) = "KEY")

/-! ## Fronts that open a constraint -/

theorem isBlank_toUpper (c : Char) : isBlank c.toUpper = isBlank c := by
  by_cases hblank : isBlank c
  · rw [toUpper_of_isBlank hblank]
  · by_cases hlower : c.toNat < 128
    · have hascii : ∀ n < 128, isBlank (Char.ofNat n) = false →
          isBlank (Char.ofNat n).toUpper = false := by decide
      have h := hascii c.toNat hlower
      rw [Char.ofNat_toNat] at h
      rw [Bool.not_eq_true] at hblank
      rw [h hblank, hblank]
    · have hsame : c.toUpper = c := by
        refine dif_neg fun hrange => hlower ?_
        have hbound : c.toNat ≤ 122 := hrange.2
        omega
      rw [hsame]

theorem capitals_eq_iff {word : List Char} {keyword : String} :
    capitals word = keyword ↔ word.map Char.toUpper = keyword.toList := by
  rw [capitals, ← String.toList_inj, String.toList_ofList]

section Fronts
variable {u v : List Char} (hu : ∀ c ∈ u, isBlank c = false) (hv : ∀ c ∈ v.head?, isBlank c)
include hv

theorem prefix_of_prefix_append {w : List Char} (hw : ∀ c ∈ w, isBlank c = false)
    (h : w <+: u ++ v) : w <+: u := by
  obtain ⟨s, hs⟩ := h
  cases v with
  | nil => exact ⟨s, by rw [hs, List.append_nil]⟩
  | cons d v =>
    rcases prefix_or_reaches hs with hfront | ⟨b, rfl, -⟩
    · exact hfront
    · have hd := hw d (by simp)
      rw [hv d rfl] at hd
      cases hd

include hu in
/-- Two words with a space between them are at the front of a text exactly if the first is its first
word and the second follows a space. -/
theorem spaced_prefix_append_iff {w w' : List Char} (hw : ∀ c ∈ w, isBlank c = false) :
    w ++ ' ' :: w' <+: u ++ v ↔ u = w ∧ ' ' :: w' <+: v := by
  constructor
  · rintro ⟨s, hs⟩
    have hleft := takeWhile_dropWhile_append (p := fun c => !isBlank c) (b := ' ' :: (w' ++ s))
      (fun c hc => by rw [hw c hc]; rfl) (by rintro c ⟨⟩; decide)
    have hright := takeWhile_dropWhile_append (p := fun c => !isBlank c) (b := v)
      (fun c hc => by rw [hu c hc]; rfl) (fun c hc => by rw [hv c hc]; rfl)
    have hassoc : w ++ ' ' :: (w' ++ s) = u ++ v := by rw [← hs]; simp
    rw [hassoc, hright.1, hright.2] at hleft
    exact ⟨hleft.1, s, by rw [hleft.2]; rfl⟩
  · rintro ⟨rfl, s, rfl⟩
    exact ⟨s, by simp⟩

end Fronts

section Definition
variable {indent : List Char} (name : Identifier) {c : Char} (rest : List Char)
  (hindent : ∀ d ∈ indent, isBlank d) (hc : isBlank c)
include hindent hc

/-- The letters that open a constraint are a keyword at the front of the first word, or two words with a
single space between them. -/
theorem opensConstraint_iff : OpensConstraint (indent ++ (name.text ++ c :: rest)) ↔
    (∃ keyword ∈ loneKeywords, keyword.toList <+: name.text.map Char.toUpper) ∨
      (capitals name.text ∈ pairedKeywords ∧
        " KEY".toList <+: (c :: rest).map Char.toUpper) := by
  have hname : ∀ d ∈ name.text.map Char.toUpper, isBlank d = false := by
    intro d hd
    obtain ⟨e, he, rfl⟩ := List.mem_map.1 hd
    rw [isBlank_toUpper]
    exact not_isBlank_of_isNamePart (name.isNamePart_text e he)
  have hbehind : ∀ d ∈ ((trimEnd (c :: rest)).map Char.toUpper).head?, isBlank d := by
    intro d hd
    rw [List.head?_map] at hd
    obtain ⟨e, he, rfl⟩ := Option.map_eq_some_iff.1 hd
    rw [isBlank_toUpper]
    exact isBlank_head?_trimEnd hc rest e he
  -- The letter behind the space is no blank, so trimming does not reach it.
  have htrimmed : " KEY".toList <+: (trimEnd (c :: rest)).map Char.toUpper ↔
      " KEY".toList <+: (c :: rest).map Char.toUpper := by
    constructor
    · exact fun h => h.trans (List.IsPrefix.map Char.toUpper (trimEnd_prefix_self (c :: rest)))
    · intro h
      obtain ⟨w, hw, hletters⟩ := List.prefix_map_iff.1 h
      refine List.prefix_map_iff.2 ⟨w, prefix_trimEnd hw fun d hd => ?_, hletters⟩
      have hlast : (w.map Char.toUpper).getLast? = some d.toUpper := by
        rw [List.getLast?_map, hd, Option.map_some]
      rw [← hletters] at hlast
      have hletter : 'Y' = d.toUpper := Option.some.inj hlast
      rw [← isBlank_toUpper, ← hletter]
      decide
  have hletters : ∀ keyword ∈ loneKeywords ++ pairedKeywords,
      keyword.toList.all (fun d => !isBlank d) = true := by decide
  have hword : ∀ keyword ∈ loneKeywords ++ pairedKeywords, ∀ d ∈ keyword.toList,
      isBlank d = false := fun keyword hmem d hd => by
    simpa using List.all_eq_true.1 (hletters keyword hmem) d hd
  have hopenings : constraintOpenings.Perm
      (loneKeywords ++ pairedKeywords.map fun keyword => keyword ++ " KEY") := by decide
  rw [OpensConstraint, trim_append_of_blank hindent, trim_identifier_append, List.map_append]
  simp only [hopenings.mem_iff, List.mem_append, List.mem_map, or_and_right, exists_or]
  refine or_congr ?_ ?_
  · refine exists_congr fun keyword => and_congr_right fun hmem => ?_
    exact ⟨prefix_of_prefix_append hbehind (hword keyword (List.mem_append_left _ hmem)),
      fun h => h.trans (List.prefix_append _ _)⟩
  · rw [← htrimmed]
    constructor
    · rintro ⟨_, ⟨keyword, hmem, rfl⟩, h⟩
      rw [String.toList_append] at h
      obtain ⟨hword, hkey⟩ := (spaced_prefix_append_iff hname hbehind
        (hword keyword (List.mem_append_right _ hmem))).1 h
      exact ⟨capitals_eq_iff.2 hword ▸ hmem, hkey⟩
    · rintro ⟨hmem, hkey⟩
      refine ⟨_, ⟨capitals name.text, hmem, rfl⟩, ?_⟩
      rw [String.toList_append]
      refine (spaced_prefix_append_iff hname hbehind
        (hword _ (List.mem_append_right _ hmem))).2 ⟨?_, hkey⟩
      rw [capitals, String.toList_ofList]

/-! ## The column of a definition -/

theorem columnName_definition :
    (OpensConstraint (indent ++ (name.text ++ c :: rest)) ∧
        columnName (indent ++ (name.text ++ c :: rest)) = none) ∨
      (¬ OpensConstraint (indent ++ (name.text ++ c :: rest)) ∧
        columnName (indent ++ (name.text ++ c :: rest)) = some (String.ofList name.text)) := by
  by_cases hopen : OpensConstraint (indent ++ (name.text ++ c :: rest))
  · exact .inl ⟨hopen, columnName_of_declares (.constraint hopen)⟩
  · exact .inr ⟨hopen, columnName_of_declares (.column hindent hc hopen)⟩

/-- The column of a definition is the one that its words give exactly if its letters are words. -/
theorem columnName_eq_wordColumn_iff :
    columnName (indent ++ (name.text ++ c :: rest)) = wordColumn name.text (c :: rest) ↔
      LettersAreWords name.text (c :: rest) := by
  have hfront := opensConstraint_iff name rest hindent hc
  have hlone : ∀ keyword ∈ loneKeywords, ∀ other ∈ loneKeywords,
      keyword.toList <+: other.toList → other = keyword := by decide
  have hpaired : ∀ keyword ∈ loneKeywords, ∀ other ∈ pairedKeywords,
      ¬ keyword.toList <+: other.toList := by decide
  have hclause : opensClause name.text (c :: rest) = true ↔ capitals name.text ∈ loneKeywords ∨
      (capitals name.text ∈ pairedKeywords ∧ capitals (wordBehind (c :: rest)) = "KEY") := by
    simp [opensClause]
  have hcapitals : (capitals name.text).toList = name.text.map Char.toUpper := by
    rw [capitals, String.toList_ofList]
  have hagree : columnName (indent ++ (name.text ++ c :: rest)) = wordColumn name.text (c :: rest) ↔
      (OpensConstraint (indent ++ (name.text ++ c :: rest)) ↔
        opensClause name.text (c :: rest) = true) := by
    rw [wordColumn]
    rcases columnName_definition name rest hindent hc with
      ⟨hopen, hcolumn⟩ | ⟨hopen, hcolumn⟩
    · cases hwords : opensClause name.text (c :: rest) <;> simp [hopen, hcolumn]
    · cases hwords : opensClause name.text (c :: rest) <;> simp [hopen, hcolumn]
  rw [hagree, hfront, hclause]
  constructor
  · intro h
    refine ⟨fun keyword hmem hletters => ?_, fun hmem => ?_⟩
    · rcases h.1 (.inl ⟨keyword, hmem, hletters⟩) with hword | ⟨hword, -⟩
      · exact hlone keyword hmem _ hword (hcapitals ▸ hletters)
      · exact absurd (hcapitals ▸ hletters) (hpaired keyword hmem _ hword)
    · have hnone : ¬ ∃ keyword ∈ loneKeywords, keyword.toList <+: name.text.map Char.toUpper := by
        rintro ⟨keyword, hkeyword, hletters⟩
        exact hpaired keyword hkeyword _ hmem (hcapitals ▸ hletters)
      have hnot : capitals name.text ∉ loneKeywords := fun hword =>
        hnone ⟨_, hword, hcapitals ▸ List.prefix_rfl⟩
      simpa only [hnone, hnot, hmem, false_or, true_and] using h
  · rintro ⟨hlong, hspaced⟩
    refine or_congr ⟨?_, fun hword => ⟨_, hword, hcapitals ▸ List.prefix_rfl⟩⟩
      (and_congr_right hspaced)
    rintro ⟨keyword, hmem, hletters⟩
    exact hlong keyword hmem hletters ▸ hmem

end Definition

/-- A clause with its words a single space apart, and a column whose name only holds a keyword. -/
theorem columnName_of_clear_definitions :
    (LettersAreWords "primary".toList " key(id)".toList ∧
        columnName "  primary key(id)".toList = none) ∧
      LettersAreWords "is_unique".toList "\tboolean,".toList ∧
        columnName "\tis_unique\tboolean,".toList = some "is_unique" := by
  have hprimary : LettersAreWords "primary".toList " key(id)".toList :=
    ⟨by decide, by decide +kernel⟩
  have hcolumn : LettersAreWords "is_unique".toList "\tboolean,".toList := ⟨by decide, by decide⟩
  have hindents : (∀ d ∈ "  ".toList, isBlank d) ∧ ∀ d ∈ "\t".toList, isBlank d :=
    ⟨List.all_eq_true.1 (by decide), List.all_eq_true.1 (by decide)⟩
  have hspaces : isBlank ' ' ∧ isBlank '\t' := by decide
  have hclause := (columnName_eq_wordColumn_iff ⟨'p', "rimary".toList, by decide,
    List.all_eq_true.1 (by decide)⟩ "key(id)".toList hindents.1 hspaces.1).2 hprimary
  have hkept := (columnName_eq_wordColumn_iff ⟨'i', "s_unique".toList, by decide,
    List.all_eq_true.1 (by decide)⟩ "boolean,".toList hindents.2 hspaces.2).2 hcolumn
  exact ⟨⟨hprimary, hclause.trans (by decide +kernel)⟩, hcolumn, hkept.trans (by decide +kernel)⟩

/-- A word that starts with a keyword hides a column, and two words further apart than one space make
one out of a clause. -/
theorem columnName_ne_wordColumn :
    (columnName "check_in_at date".toList = none ∧
        wordColumn "check_in_at".toList " date".toList = some "check_in_at") ∧
      columnName "PRIMARY   KEY (id)".toList = some "PRIMARY" ∧
        wordColumn "PRIMARY".toList "   KEY (id)".toList = none := by
  decide +kernel

end ColumnAudit.Schema
