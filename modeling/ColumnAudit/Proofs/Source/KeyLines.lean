import ColumnAudit.Proofs.Source.LongerText
import Mathlib.Data.List.Chain

/-! # Type keys and lines

A search for type keys goes from line start to line start, but the blanks of a key may be line ends. So
a key without a value takes the indentation of the next line with it, and that line is passed over; and a
name with nothing behind it takes a colon from the next line.

Where neither happens (`KeysOnLines`), the keys of a text are the keys of its lines
(`mem_typeKeys_iff_of_keysOnLines`). The induction is on the lines, for two searches at once: the one
that starts at a line start and the one that starts behind the indentation (`searches_eq_lineKeys`).
-/

namespace ColumnAudit.Source
open Text
set_option autoImplicit false

/-! ## Keys of lines -/

/-- A line that starts with a key and its colon. -/
def KeyLine (line : List Char) (key : String) : Prop :=
  ∃ indent name gap value, (∀ c ∈ indent, isBlank c) ∧ IsName name ∧ (∀ c ∈ gap, isBlank c) ∧
    line = indent ++ (name ++ (gap ++ ':' :: value)) ∧ key = String.ofList name

def lineKey (line : List Char) : Option String := (typeKey line).map Prod.fst

theorem lineKey_eq_some_iff {line : List Char} {key : String} :
    lineKey line = some key ↔ KeyLine line key := by
  unfold lineKey
  rw [Option.map_eq_some_iff]
  constructor
  · rintro ⟨⟨_, rest⟩, h, rfl⟩
    obtain ⟨indent, name, gap, value, hindent, hname, hgap, hline, hkey, -⟩ := typeKey_eq_some_iff.1 h
    exact ⟨indent, name, gap, value, hindent, hname, hgap, hline, hkey⟩
  · rintro ⟨indent, name, gap, value, hindent, hname, hgap, hline, hkey⟩
    exact ⟨(key, skipBlanks value), typeKey_eq_some_iff.2
      ⟨indent, name, gap, value, hindent, hname, hgap, hline, hkey, rfl⟩, rfl⟩

/-- A key with only blanks behind its colon. -/
def isOpenKey (line : List Char) : Bool := (typeKey line).any fun (_, rest) => rest.isEmpty

def isIndentedKey (line : List Char) : Bool := (lineKey line).isSome && line.head?.any isBlank

/-- A name with only blanks behind it. -/
def isLoneName (line : List Char) : Bool :=
  (leadingName (skipBlanks line)).any fun (_, rest) => rest.all isBlank

def startsWithColon (line : List Char) : Bool := (skipBlanks line).head? == some ':'

/-- Two lines, one behind the other, of which the first takes no indentation from a key and no colon. -/
structure Apart (line next : List Char) : Prop where
  indentation : ¬ (isOpenKey line = true ∧ isIndentedKey next = true)
  colon : ¬ (isLoneName line = true ∧ startsWithColon next = true)

instance : DecidableRel Apart := fun line next =>
  decidable_of_iff (¬ (isOpenKey line = true ∧ isIndentedKey next = true) ∧
    ¬ (isLoneName line = true ∧ startsWithColon next = true)) ⟨fun h => ⟨h.1, h.2⟩, fun h => ⟨h.1, h.2⟩⟩

/-- The lines of a text that are not blank. -/
def solidLines (t : List Char) : List (List Char) := (lines t).filter fun line => !line.all isBlank

/-- A text whose keys stand on lines of their own with their colons. -/
def KeysOnLines (t : List Char) : Prop := (solidLines t).IsChain Apart

instance (t : List Char) : Decidable (KeysOnLines t) :=
  inferInstanceAs (Decidable ((solidLines t).IsChain Apart))

def lineKeys (t : List Char) : List String := (lines t).filterMap lineKey

section Lines
variable {line : List Char} (hline : '\n' ∉ line) (t : List Char)
include hline

theorem lineKeys_append : lineKeys (line ++ '\n' :: t) = (lineKey line).toList ++ lineKeys t := by
  unfold lineKeys lines
  rw [pieces_append_cons hline, List.filterMap_cons]
  cases lineKey line <;> rfl

theorem solidLines_append_of_blank (h : ∀ c ∈ line, isBlank c) :
    solidLines (line ++ '\n' :: t) = solidLines t := by
  have hall : (!line.all isBlank) = false := by simpa using h
  unfold solidLines lines
  rw [pieces_append_cons hline, List.filter_cons, hall]
  rfl

theorem solidLines_append_of_solid (h : ∃ c ∈ line, isBlank c = false) :
    solidLines (line ++ '\n' :: t) = line :: solidLines t := by
  have hall : (!line.all isBlank) = true := by simpa using h
  unfold solidLines lines
  rw [pieces_append_cons hline, List.filter_cons, hall]
  rfl

end Lines

theorem lineKeys_line {line : List Char} (hline : '\n' ∉ line) :
    lineKeys line = (lineKey line).toList := by
  unfold lineKeys lines
  rw [pieces_of_not_mem hline, List.filterMap_cons]
  cases lineKey line <;> rfl

theorem solidLines_of_solid {line : List Char} (hline : '\n' ∉ line)
    (h : ∃ c ∈ line, isBlank c = false) : solidLines line = [line] := by
  have hall : (!line.all isBlank) = true := by simpa using h
  unfold solidLines lines
  rw [pieces_of_not_mem hline, List.filter_cons, hall]
  rfl

theorem skipBlanks_blank_line {b : List Char} (hb : ∀ c ∈ b, isBlank c) (t : List Char) :
    skipBlanks (b ++ '\n' :: t) = skipBlanks t := by
  have hbreak : ∀ c ∈ ['\n'], isBlank c := List.forall_mem_singleton.2 (by decide)
  unfold skipBlanks
  rw [trimStart_append_of_blank hb, ← List.singleton_append, trimStart_append_of_blank hbreak]

/-- What a text starts with behind its blanks is on its first line that is not blank. -/
theorem exists_head?_solidLines {t : List Char} {c : Char} (h : (skipBlanks t).head? = some c) :
    ∃ line ∈ (solidLines t).head?, (skipBlanks line).head? = some c := by
  induction t using lines_induction with
  | last line hline =>
    have hsolid : ∃ c ∈ line, isBlank c = false := by
      by_contra hblank
      have hall : ∀ c ∈ line, isBlank c := by simpa using hblank
      rw [skipBlanks, trimStart_eq_nil_iff.2 hall] at h
      cases h
    exact ⟨line, by rw [solidLines_of_solid hline hsolid]; rfl, h⟩
  | next line t hline ih =>
    by_cases hblank : ∀ c ∈ line, isBlank c
    · rw [skipBlanks_blank_line hblank] at h
      rw [solidLines_append_of_blank hline t hblank]
      exact ih h
    · simp only [not_forall, Bool.not_eq_true, exists_prop] at hblank
      rw [skipBlanks, trimStart_append_of_not_blank hblank,
        List.head?_append_of_ne_nil _ (trimStart_ne_nil hblank)] at h
      exact ⟨line, by rw [solidLines_append_of_solid hline t hblank]; rfl, h⟩

/-! ## The search from place to place -/

/-- Whether a line starts behind a text, if one starts at its front or not. -/
def startsLine (atStart : Bool) : List Char → Bool
  | [] => atStart
  | c :: cs => startsLine (c == '\n') cs

theorem startsLine_append (atStart : Bool) (u v : List Char) :
    startsLine atStart (u ++ v) = startsLine (startsLine atStart u) v := by
  induction u generalizing atStart with
  | nil => rfl
  | cons c u ih => exact ih _

theorem first_one_line {c : Char} {u : List Char} (hline : '\n' ∉ c :: u) :
    (c == '\n') = false ∧ '\n' ∉ u := by
  rw [List.mem_cons, not_or] at hline
  exact ⟨beq_false_of_ne (Ne.symm hline.1), hline.2⟩

theorem startsLine_of_line {u : List Char} (hu : u ≠ []) (hline : '\n' ∉ u) (atStart : Bool) :
    startsLine atStart u = false := by
  induction u generalizing atStart with
  | nil => exact absurd rfl hu
  | cons c u ih =>
    obtain ⟨hc, hrest⟩ := first_one_line hline
    cases u with
    | nil => exact hc
    | cons d u => exact ih (List.cons_ne_nil d u) hrest (c == '\n')

theorem typeKeysFrom_drop (u t : List Char) (atStart : Bool) :
    typeKeysFrom u.length atStart (u ++ t) = typeKeysFrom 0 (startsLine atStart u) t := by
  induction u generalizing atStart with
  | nil => rfl
  | cons c u ih => exact ih _

theorem typeKeysFrom_of_none {c : Char} {t : List Char} (h : typeKey (c :: t) = none)
    (atStart : Bool) : typeKeysFrom 0 atStart (c :: t) = typeKeysFrom 0 (c == '\n') t := by
  rw [typeKeysFrom.eq_def]
  simp only [h, ite_self]

theorem typeKeysFrom_of_some {u rest : List Char} {key : String} (hu : u ≠ [])
    (h : typeKey (u ++ rest) = some (key, rest)) :
    typeKeysFrom 0 true (u ++ rest) = key :: typeKeysFrom 0 (startsLine true u) rest := by
  cases u with
  | nil => exact absurd rfl hu
  | cons c u =>
    have hskip : (u ++ rest).length - rest.length = u.length := by
      rw [List.length_append]
      omega
    rw [List.cons_append] at h ⊢
    rw [typeKeysFrom.eq_def]
    simp only [if_true, h, hskip]
    rw [typeKeysFrom_drop]
    rfl

/-- In the middle of a line there is no key before the next line. -/
theorem typeKeysFrom_line {u : List Char} (hline : '\n' ∉ u) (t : List Char) :
    typeKeysFrom 0 false (u ++ '\n' :: t) = typeKeysFrom 0 true t := by
  induction u with
  | nil => rfl
  | cons c u ih =>
    obtain ⟨hc, hrest⟩ := first_one_line hline
    show typeKeysFrom 0 (c == '\n') (u ++ '\n' :: t) = typeKeysFrom 0 true t
    rw [hc, ih hrest]

theorem typeKeysFrom_last_line {u : List Char} (hline : '\n' ∉ u) :
    typeKeysFrom 0 false u = [] := by
  induction u with
  | nil => rfl
  | cons c u ih =>
    obtain ⟨hc, hrest⟩ := first_one_line hline
    show typeKeysFrom 0 (c == '\n') u = []
    rw [hc, ih hrest]

/-! ## Keys and what stands around them -/

theorem exists_front_of_typeKey {t rest : List Char} {key : String}
    (h : typeKey t = some (key, rest)) : ∃ u, u ≠ [] ∧ t = u ++ rest := by
  obtain ⟨indent, name, gap, value, -, -, -, rfl, -, rfl⟩ := typeKey_eq_some_iff.1 h
  obtain ⟨blanks, -, hvalue⟩ := exists_blanks_append_trimStart value
  refine ⟨indent ++ (name ++ (gap ++ ':' :: blanks)), by simp, ?_⟩
  unfold skipBlanks
  conv_lhs => rw [hvalue]
  simp

theorem lineKey_of_blank {a : List Char} (ha : ∀ c ∈ a, isBlank c) : lineKey a = none := by
  unfold lineKey typeKey skipBlanks
  rw [trimStart_eq_nil_iff.2 ha]
  rfl

/-- A blank line is passed over: a key behind it is found from either line start. -/
theorem typeKeysFrom_blank_line {b : List Char} (hline : '\n' ∉ b) (hb : ∀ c ∈ b, isBlank c)
    (t : List Char) : typeKeysFrom 0 true (b ++ '\n' :: t) = typeKeysFrom 0 true t := by
  have hsame : typeKey (b ++ '\n' :: t) = typeKey t := by
    unfold typeKey
    rw [skipBlanks_blank_line hb]
  cases hkey : typeKey t with
  | none =>
    rw [hkey] at hsame
    cases b with
    | nil => exact typeKeysFrom_of_none hsame true
    | cons c b =>
      obtain ⟨hc, hrest⟩ := first_one_line hline
      rw [List.cons_append] at hsame ⊢
      rw [typeKeysFrom_of_none hsame, hc, typeKeysFrom_line hrest]
  | some found =>
    obtain ⟨key, rest⟩ := found
    obtain ⟨u, hu, rfl⟩ := exists_front_of_typeKey hkey
    have hlonger : typeKey ((b ++ '\n' :: u) ++ rest) = some (key, rest) := by
      rw [List.append_assoc, List.cons_append, hsame, hkey]
    have hsearch := typeKeysFrom_of_some (by simp) hlonger
    rw [startsLine_append, List.append_assoc, List.cons_append] at hsearch
    rw [hsearch, typeKeysFrom_of_some hu hkey]
    rfl

/-- A key that a line starts has its colon on that line, or the line is a lone name and the colon is
the first thing behind it. -/
theorem typeKey_line {line t rest : List Char} {key : String}
    (hsolid : ∃ c ∈ line, isBlank c = false)
    (h : typeKey (line ++ '\n' :: t) = some (key, rest)) :
    (isLoneName line = true ∧ (skipBlanks t).head? = some ':') ∨
      ∃ front value, front ≠ [] ∧ line = front ++ value ∧
        typeKey line = some (key, skipBlanks value) ∧ rest = skipBlanks (value ++ '\n' :: t) := by
  have hcolon : ":".toList = [':'] := rfl
  have hfront : skipBlanks (line ++ '\n' :: t) = skipBlanks line ++ '\n' :: t :=
    trimStart_append_of_not_blank hsolid _
  have hsome : skipBlanks line ≠ [] := trimStart_ne_nil hsolid
  unfold typeKey at h
  rw [hfront, leadingName, leading_append_cons (by decide) hsome] at h
  obtain ⟨⟨_, _⟩, hlonger, h⟩ := Option.bind_eq_some_iff.1 h
  obtain ⟨⟨name, behindName⟩, hname, heq⟩ := Option.map_eq_some_iff.1 hlonger
  obtain ⟨rfl, rfl⟩ := Prod.mk.inj heq
  obtain ⟨behindColon, hmark, h⟩ := Option.bind_eq_some_iff.1 h
  obtain ⟨rfl, rfl⟩ := Prod.mk.inj (Option.some.inj h)
  rw [behind_eq_some_iff, hcolon, List.singleton_append] at hmark
  by_cases hgap : ∀ c ∈ behindName, isBlank c
  · left
    rw [skipBlanks_blank_line hgap] at hmark
    refine ⟨?_, by rw [hmark]; rfl⟩
    unfold isLoneName
    rw [leadingName, hname, Option.any_some]
    exact List.all_eq_true.2 hgap
  · right
    simp only [not_forall, Bool.not_eq_true, exists_prop] at hgap
    rw [skipBlanks, trimStart_append_of_not_blank hgap] at hmark
    obtain ⟨value, hvalue, rfl⟩ : ∃ value, trimStart behindName = ':' :: value ∧
        behindColon = value ++ '\n' :: t := by
      cases hrest : trimStart behindName with
      | nil =>
        rw [hrest] at hmark
        exact absurd (List.cons.inj hmark).1 (by decide)
      | cons c value =>
        rw [hrest, List.cons_append] at hmark
        obtain ⟨rfl, hvalue⟩ := List.cons.inj hmark
        exact ⟨value, rfl, hvalue.symm⟩
    obtain ⟨indent, -, hline⟩ := exists_blanks_append_trimStart line
    obtain ⟨gap, -, hbehind⟩ := exists_blanks_append_trimStart behindName
    refine ⟨indent ++ (name ++ (gap ++ [':'])), value, by simp, ?_, ?_, rfl⟩
    · rw [hline, ← skipBlanks, ← leading_append hname, hbehind, hvalue]
      simp
    · have hvalue' : behind ":" (skipBlanks behindName) = some value := by
        rw [behind_eq_some_iff, hcolon]
        exact hvalue
      unfold typeKey
      rw [leadingName, hname]
      simp only [Option.bind_eq_bind, Option.bind_some, hvalue']

/-! ## All lines -/

theorem typeKeysFrom_one_line {line : List Char} (hline : '\n' ∉ line) :
    typeKeysFrom 0 true line = (lineKey line).toList := by
  unfold lineKey
  cases line with
  | nil => rfl
  | cons c line =>
    cases hkey : typeKey (c :: line) with
    | none =>
      obtain ⟨hc, hrest⟩ := first_one_line hline
      rw [typeKeysFrom_of_none hkey, hc, typeKeysFrom_last_line hrest]
      rfl
    | some found =>
      obtain ⟨key, rest⟩ := found
      obtain ⟨u, hu, htext⟩ := exists_front_of_typeKey hkey
      rw [htext] at hkey hline ⊢
      rw [List.mem_append, not_or] at hline
      rw [typeKeysFrom_of_some hu hkey, startsLine_of_line hu hline.1, typeKeysFrom_last_line hline.2]
      rfl

/-- A line that is no indented key has no indentation, or it has no key. -/
theorem no_indent_or_no_key {line : List Char} (h : isIndentedKey line = false) :
    line.takeWhile isBlank = [] ∨ (line.takeWhile isBlank ≠ [] ∧ lineKey line = none) := by
  unfold isIndentedKey at h
  cases line with
  | nil => exact .inl rfl
  | cons c line =>
    cases hc : isBlank c with
    | false => exact .inl (by rw [List.takeWhile_cons, hc]; rfl)
    | true =>
      refine .inr ⟨by rw [List.takeWhile_cons, hc]; simp, ?_⟩
      simpa [hc] using h

/-- The keys behind the blanks at the front. The first of them has to start a line, like all others. -/
def keysBehindBlanks (t : List Char) : List String :=
  typeKeysFrom 0 (startsLine true (t.takeWhile isBlank)) (skipBlanks t)

theorem parts_one_line {u : List Char} (hline : '\n' ∉ u) :
    '\n' ∉ u.takeWhile isBlank ∧ '\n' ∉ skipBlanks u :=
  ⟨fun h => hline ((List.takeWhile_prefix _).subset h), fun h => hline ((List.dropWhile_suffix _).subset h)⟩

theorem keysBehindBlanks_of_no_indent {t : List Char} (h : t.takeWhile isBlank = []) :
    keysBehindBlanks t = typeKeysFrom 0 true t := by
  have hparts := List.takeWhile_append_dropWhile (p := isBlank) (l := t)
  rw [h, List.nil_append] at hparts
  unfold keysBehindBlanks skipBlanks trimStart
  rw [h, hparts]
  rfl

theorem keysBehindBlanks_blank_line {b : List Char} (hb : ∀ c ∈ b, isBlank c) (t : List Char) :
    keysBehindBlanks (b ++ '\n' :: t) = keysBehindBlanks t := by
  have hbreak : isBlank '\n' = true := by decide
  unfold keysBehindBlanks skipBlanks trimStart
  rw [List.takeWhile_append_of_pos hb, List.dropWhile_append_of_pos hb, List.takeWhile_cons_of_pos hbreak,
    List.dropWhile_cons_of_pos hbreak, startsLine_append]
  rfl

section Indented
variable {line : List Char} (hline : '\n' ∉ line) (hindent : line.takeWhile isBlank ≠ [])
include hline hindent

theorem keysBehindBlanks_last_line : keysBehindBlanks line = [] := by
  obtain ⟨hfront, hrest⟩ := parts_one_line hline
  unfold keysBehindBlanks
  rw [startsLine_of_line hindent hfront, typeKeysFrom_last_line hrest]

theorem keysBehindBlanks_line (hsolid : ∃ c ∈ line, isBlank c = false) (t : List Char) :
    keysBehindBlanks (line ++ '\n' :: t) = typeKeysFrom 0 true t := by
  obtain ⟨hfront, hrest⟩ := parts_one_line hline
  unfold skipBlanks at hrest
  unfold keysBehindBlanks skipBlanks
  rw [takeWhile_append_of_not_all hsolid, trimStart_append_of_not_blank hsolid,
    startsLine_of_line hindent hfront, typeKeysFrom_line hrest]

end Indented

section Values
variable {front value t : List Char} {key : String} (hfront : front ≠ [])
  (hkey : typeKey (front ++ value ++ '\n' :: t) = some (key, skipBlanks (value ++ '\n' :: t)))
include hfront hkey

theorem typeKeysFrom_open_value (hopen : ∀ c ∈ value, isBlank c) :
    typeKeysFrom 0 true (front ++ value ++ '\n' :: t) = key :: keysBehindBlanks t := by
  have htext : front ++ value ++ '\n' :: t =
      (front ++ value ++ '\n' :: t.takeWhile isBlank) ++ skipBlanks t := by
    rw [List.append_assoc (front ++ value), List.cons_append, skipBlanks, trimStart,
      List.takeWhile_append_dropWhile]
  rw [skipBlanks_blank_line hopen, htext] at hkey
  rw [htext, typeKeysFrom_of_some (by simp [hfront]) hkey, startsLine_append]
  rfl

theorem typeKeysFrom_solid_value (hline : '\n' ∉ front ++ value) (hsolid : ∃ c ∈ value, isBlank c = false) :
    typeKeysFrom 0 true (front ++ value ++ '\n' :: t) = key :: typeKeysFrom 0 true t := by
  rw [List.mem_append, not_or] at hline
  obtain ⟨hblanksLine, hrestLine⟩ := parts_one_line hline.2
  have hfrontLine : '\n' ∉ front ++ value.takeWhile isBlank := by
    rw [List.mem_append, not_or]
    exact ⟨hline.1, hblanksLine⟩
  have hne : front ++ value.takeWhile isBlank ≠ [] := by simp [hfront]
  have hrest : skipBlanks (value ++ '\n' :: t) = skipBlanks value ++ '\n' :: t :=
    trimStart_append_of_not_blank hsolid _
  have htext : front ++ value ++ '\n' :: t =
      (front ++ value.takeWhile isBlank) ++ (skipBlanks value ++ '\n' :: t) := by
    rw [List.append_assoc front (value.takeWhile isBlank), ← List.append_assoc _ (skipBlanks value),
      skipBlanks, trimStart, List.takeWhile_append_dropWhile, List.append_assoc]
  rw [hrest, htext] at hkey
  rw [htext, typeKeysFrom_of_some hne hkey, startsLine_of_line hne hfrontLine,
    typeKeysFrom_line hrestLine]

end Values

/-- A line takes no more than the blanks behind it, if the colon of its key is its own. -/
theorem typeKeysFrom_solid_line {line t : List Char} (hline : '\n' ∉ line)
    (hsolid : ∃ c ∈ line, isBlank c = false)
    (hcolon : ¬ (isLoneName line = true ∧ (skipBlanks t).head? = some ':')) :
    typeKeysFrom 0 true (line ++ '\n' :: t) =
      (lineKey line).toList ++ if isOpenKey line then keysBehindBlanks t else typeKeysFrom 0 true t := by
  unfold lineKey isOpenKey
  cases hkey : typeKey (line ++ '\n' :: t) with
  | none =>
    have hnone : typeKey line = none := by
      rw [Option.eq_none_iff_forall_ne_some]
      rintro ⟨key, rest⟩ hsome
      obtain ⟨rest', hlonger, -⟩ := typeKey_append hsome ('\n' :: t)
      rw [hkey] at hlonger
      cases hlonger
    rw [hnone]
    cases line with
    | nil => exact absurd hsolid (by simp)
    | cons c line =>
      obtain ⟨hc, hrest⟩ := first_one_line hline
      rw [List.cons_append] at hkey ⊢
      rw [typeKeysFrom_of_none hkey, hc, typeKeysFrom_line hrest]
      rfl
  | some found =>
    obtain ⟨key, rest⟩ := found
    obtain hlone | ⟨front, value, hfront, rfl, hown, rfl⟩ := typeKey_line hsolid hkey
    · exact absurd hlone hcolon
    rw [hown]
    by_cases hopen : ∀ c ∈ value, isBlank c
    · have hnothing : skipBlanks value = [] := trimStart_eq_nil_iff.2 hopen
      rw [typeKeysFrom_open_value hfront hkey hopen, hnothing]
      rfl
    · simp only [not_forall, Bool.not_eq_true, exists_prop] at hopen
      have hvalue : skipBlanks value ≠ [] := trimStart_ne_nil hopen
      rw [typeKeysFrom_solid_value hfront hkey hline hopen]
      simp [hvalue]

/-- The keys of a text from its front, and from behind its blanks unless a key is indented by them. -/
theorem searches_eq_lineKeys {t : List Char} (h : KeysOnLines t) :
    typeKeysFrom 0 true t = lineKeys t ∧
      ((∀ line ∈ (solidLines t).head?, isIndentedKey line = false) → keysBehindBlanks t = lineKeys t) := by
  -- A key without a value leaves the second search on what follows it, every other line the first.
  induction t using lines_induction with
  | last line hline =>
    have hfront := (typeKeysFrom_one_line hline).trans (lineKeys_line hline).symm
    refine ⟨hfront, fun hfirst => ?_⟩
    have hunindented : isIndentedKey line = false := by
      by_cases hblank : ∀ c ∈ line, isBlank c
      · unfold isIndentedKey
        rw [lineKey_of_blank hblank]
        rfl
      · simp only [not_forall, Bool.not_eq_true, exists_prop] at hblank
        rw [solidLines_of_solid hline hblank] at hfirst
        exact hfirst line rfl
    -- The second search starts in the middle of an indented line and finds nothing on it.
    obtain hnil | ⟨hindent, hnone⟩ := no_indent_or_no_key hunindented
    · rw [keysBehindBlanks_of_no_indent hnil, hfront]
    · rw [keysBehindBlanks_last_line hline hindent, lineKeys_line hline, hnone]
      rfl
  | next line t hline ih =>
    by_cases hblank : ∀ c ∈ line, isBlank c
    · have hkey := lineKey_of_blank hblank
      unfold KeysOnLines at h
      rw [solidLines_append_of_blank hline t hblank] at h
      rw [solidLines_append_of_blank hline t hblank, lineKeys_append hline t, hkey,
        typeKeysFrom_blank_line hline hblank t, keysBehindBlanks_blank_line hblank t]
      exact ih h
    · simp only [not_forall, Bool.not_eq_true, exists_prop] at hblank
      unfold KeysOnLines at h
      rw [solidLines_append_of_solid hline t hblank, List.isChain_cons] at h
      obtain ⟨hnext, hrest⟩ := h
      obtain ⟨hall, hbehind⟩ := ih hrest
      have hcolon : ¬ (isLoneName line = true ∧ (skipBlanks t).head? = some ':') := by
        rintro ⟨hlone, hmark⟩
        obtain ⟨next, hmem, hfirst⟩ := exists_head?_solidLines hmark
        exact (hnext next hmem).colon ⟨hlone, beq_iff_eq.2 hfirst⟩
      have hfront : typeKeysFrom 0 true (line ++ '\n' :: t) = lineKeys (line ++ '\n' :: t) := by
        rw [typeKeysFrom_solid_line hline hblank hcolon, lineKeys_append hline t]
        split
        · rename_i hopen
          rw [hbehind fun next hmem => ?_]
          by_contra hindented
          rw [Bool.not_eq_false] at hindented
          exact (hnext next hmem).indentation ⟨hopen, hindented⟩
        · rw [hall]
      refine ⟨hfront, fun hfirst => ?_⟩
      rw [solidLines_append_of_solid hline t hblank] at hfirst
      obtain hnil | ⟨hindent, hnone⟩ := no_indent_or_no_key (hfirst line rfl)
      · rw [keysBehindBlanks_of_no_indent, hfront]
        rw [takeWhile_append_of_not_all hblank, hnil]
      · rw [keysBehindBlanks_line hline hindent hblank t, lineKeys_append hline t, hnone, hall]
        rfl

theorem mem_typeKeys_ofList_iff {line : List Char} (hline : '\n' ∉ line) (x : String) :
    x ∈ typeKeys (String.ofList line) ↔ KeyLine line x := by
  rw [typeKeys_eq_ofList, NameSet.mem_ofList, String.toList_ofList, typeKeysFrom_one_line hline, Option.mem_toList,
    lineKey_eq_some_iff]

/-- If no key takes indentation and no name takes a colon from another line, then the keys of a text
are those of its lines. -/
theorem mem_typeKeys_iff_of_keysOnLines {text : String} (h : KeysOnLines text.toList) (x : String) :
    (x ∈ typeKeys text ↔ ∃ line ∈ lines text.toList, x ∈ typeKeys (String.ofList line)) ∧
      (x ∈ typeKeys text ↔ ∃ line ∈ lines text.toList, KeyLine line x) := by
  have hall : x ∈ typeKeys text ↔ ∃ line ∈ lines text.toList, KeyLine line x := by
    rw [typeKeys_eq_ofList, NameSet.mem_ofList, (searches_eq_lineKeys h).1, lineKeys, List.mem_filterMap]
    simp only [lineKey_eq_some_iff]
  refine ⟨hall.trans ?_, hall⟩
  apply exists_congr
  intro line
  apply and_congr_right
  intro hmem
  exact (mem_typeKeys_ofList_iff (not_mem_of_mem_pieces hmem) x).symm

/-- A key without a value, a name without a colon and a type on its own line take nothing away. -/
theorem mem_typeKeys_interface :
    KeysOnLines "interface Row \x7b\n  label\n  user_id: string;\n  role:\n    | 'owner';\n\x7d".toList ∧
      "role" ∈ typeKeys "interface Row \x7b\n  label\n  user_id: string;\n  role:\n    | 'owner';\n\x7d" := by
  have hlines : KeysOnLines
      "interface Row \x7b\n  label\n  user_id: string;\n  role:\n    | 'owner';\n\x7d".toList := by
    decide +kernel
  refine ⟨hlines, ((mem_typeKeys_iff_of_keysOnLines hlines "role").2).2 ⟨"  role:".toList, ?_, ?_⟩⟩
  · decide +kernel
  · exact lineKey_eq_some_iff.1 (by decide +kernel)

/-! ## Across a line end -/

/-- The first text hides the key of its second line, the second text joins a name with a colon that is
not on its line. -/
theorem typeKeys_across_lines :
    (KeyLine "  b: x".toList "b" ∧ "  b: x".toList ∈ lines "a:\n  b: x".toList ∧
        "b" ∉ typeKeys "a:\n  b: x") ∧
      "a" ∈ typeKeys "a\n  : x" ∧ ∀ line ∈ lines "a\n  : x".toList, ¬ KeyLine line "a" := by
  simp only [← lineKey_eq_some_iff]
  decide +kernel

end ColumnAudit.Source
