import ColumnAudit.Proofs.Json.Reader

/-! # Printed documents are read back

The text of a document is read as the value of the document. A member is read whatever stands behind it,
as long as that does not go on with a number, and a line end or a comma never does (`Reads`). So the
members of a bracketed list are read one after the other, and documents by recursion. The numbers of a
document have to be numbers of the binary64 format, since only those are printed as numerals that read
back as themselves.
-/

namespace ColumnAudit.Json
open Number Binary64
set_option autoImplicit false

/-! ## Strings -/

theorem readFourHex_append {u t v : List Char} {n : Nat} (h : readFourHex u = some (n, v)) :
    readFourHex (u ++ t) = some (n, v ++ t) := by
  match u, h with
  | a :: b :: c :: d :: u, h =>
    simp only [readFourHex, List.cons_append, Option.bind_eq_bind, Option.bind_eq_some_iff,
      Option.some.injEq, Prod.mk.injEq] at h ⊢
    obtain ⟨i, hi, j, hj, k, hk, l, hl, hn, rfl⟩ := h
    exact ⟨i, hi, j, hj, k, hk, l, hl, hn, rfl⟩

theorem readNumbered_fourHex {n : Nat} (hn : n < 0x20) (t : List Char) :
    readNumbered (fourHex n ++ t) = some (Char.ofNat n, t) := by
  have hread : ∀ n < 0x20, readFourHex (fourHex n) = some (n, []) := by decide
  have hlow : isLowHalf n = false := by simp [isLowHalf]; omega
  have hhigh : isHighHalf n = false := by simp [isHighHalf]; omega
  simp [readNumbered, readFourHex_append (hread n hn), hlow, hhigh]

theorem readCharacter_escaped (c : Char) (t : List Char) :
    readCharacter (escaped c ++ t) = some (c, t) := by
  unfold escaped
  split
  case h_8 hquote hslash _ _ _ _ _ =>
    split
    case isTrue hcontrol =>
      have hnumbered := readNumbered_fourHex hcontrol t
      rwa [Char.ofNat_toNat] at hnumbered
    case isFalse hcontrol =>
      have hallowed : ¬ (c = '\"' ∨ c = '\\' ∨ c.toNat < 0x20) := by
        rintro (h | h | h)
        exacts [hquote h, hslash h, hcontrol h]
      unfold readCharacter
      split <;> simp_all
  all_goals rfl

theorem exists_escaped (c : Char) : ∃ d t, escaped c = d :: t ∧ d ≠ '\"' := by
  unfold escaped
  split
  case h_8 hquote _ _ _ _ _ _ =>
    split
    · exact ⟨'\\', _, rfl, by decide⟩
    · exact ⟨c, [], rfl, hquote⟩
  all_goals exact ⟨'\\', _, rfl, by decide⟩

theorem length_le_flatMap_escaped (cs : List Char) : cs.length ≤ (cs.flatMap escaped).length := by
  induction cs with
  | nil => exact Nat.le_refl 0
  | cons c cs ih =>
    obtain ⟨d, t, hd, -⟩ := exists_escaped c
    rw [List.flatMap_cons, hd, List.cons_append, List.length_cons, List.length_cons, List.length_append]
    omega

theorem readCharacters_escaped (cs t : List Char) {n : Nat} (hn : cs.length < n) :
    readCharacters n (cs.flatMap escaped ++ '\"' :: t) = some (cs, t) := by
  induction cs generalizing n with
  | nil =>
    obtain ⟨n, rfl⟩ := Nat.exists_eq_add_one_of_ne_zero hn.ne'
    rfl
  | cons c cs ih =>
    obtain ⟨n, rfl⟩ := Nat.exists_eq_add_one_of_ne_zero (Nat.zero_lt_of_lt hn).ne'
    have hrest := ih (Nat.lt_of_succ_lt_succ hn)
    have hcharacter := readCharacter_escaped c (cs.flatMap escaped ++ '\"' :: t)
    obtain ⟨d, u, hd, hquote⟩ := exists_escaped c
    rw [List.flatMap_cons, List.append_assoc, readCharacters, if_neg, hcharacter]
    · simp [hrest]
    · rw [hd, List.cons_append, List.head?_cons, Option.some.injEq]
      exact hquote

theorem toList_quoted (s : String) :
    (quoted s).toList = '\"' :: (s.toList.flatMap escaped ++ ['\"']) := by
  rw [quoted, String.toList_ofList]
  rfl

theorem readString_quoted (s : String) (t : List Char) :
    readString ((quoted s).toList ++ t) = some (s, t) := by
  have hread := readCharacters_escaped s.toList t
    (n := (s.toList.flatMap escaped ++ '\"' :: t).length) (by
      have hlength := length_le_flatMap_escaped s.toList
      rw [List.length_append, List.length_cons]
      omega)
  rw [toList_quoted, List.cons_append, List.append_assoc]
  simp only [readString, List.cons_append, List.nil_append, hread, Option.map_some,
    String.ofList_toList]

/-! ## Numbers -/

/-- A text that does not go on with a numeral. -/
def NumberEnd (t : List Char) : Prop :=
  ∀ c ∈ t.head?, c.isDigit = false ∧ c ≠ '.' ∧ c ≠ 'e' ∧ c ≠ 'E'

section Numerals
variable {t : List Char}

theorem readDigits_append {ds : List Char} (hds : Digits ds) (hend : ∀ c ∈ t.head?, c.isDigit = false) :
    readDigits (ds ++ t) = some (ds, t) := by
  have htake : t.takeWhile Char.isDigit = [] ∧ t.dropWhile Char.isDigit = t := by
    cases t with
    | nil => exact ⟨rfl, rfl⟩
    | cons c t =>
      have hc := hend c rfl
      simp [hc]
  rw [readDigits, List.span_eq_takeWhile_dropWhile, List.takeWhile_append_of_pos hds.2,
    List.dropWhile_append_of_pos hds.2, htake.1, htake.2, List.append_nil]
  exact if_neg hds.1

/-- An exponent is read, and what is written first there does not go on with the digits before it. -/
theorem readPower_powerText {exponent : Option (Bool × List Char)}
    (hdigits : ∀ negative ds, exponent = some (negative, ds) → Digits ds) (hend : NumberEnd t) :
    readPower (Numeral.powerText exponent ++ t) = some (exponent, t) ∧
      ∀ c ∈ (Numeral.powerText exponent ++ t).head?, c.isDigit = false ∧ c ≠ '.' := by
  match exponent with
  | none =>
    refine ⟨?_, fun c hc => ⟨(hend c hc).1, (hend c hc).2.1⟩⟩
    rw [Numeral.powerText, List.nil_append]
    cases t with
    | nil => rfl
    | cons c t =>
      obtain ⟨-, -, hlower, hupper⟩ := hend c rfl
      rw [readPower, if_neg (by simp [hlower, hupper])]
  | some (negative, ds) =>
    have hread := readDigits_append (hdigits negative ds rfl) fun c hc => (hend c hc).1
    refine ⟨?_, fun c hc => ?_⟩
    · cases negative <;> simp [Numeral.powerText, readPower, readSign, hread]
    · cases hc
      decide

theorem readPlaces_append {ds : List Char} (hds : ∀ c ∈ ds, c.isDigit)
    (hend : ∀ c ∈ t.head?, c.isDigit = false ∧ c ≠ '.') :
    readPlaces (Numeral.placesText ds ++ t) = some (ds, t) := by
  rw [Numeral.placesText]
  split
  case isTrue hnone =>
    rw [hnone, List.nil_append]
    unfold readPlaces
    split
    case h_1 => exact absurd rfl (hend '.' rfl).2
    case h_2 => rfl
  case isFalse hsome =>
    exact readDigits_append ⟨hsome, hds⟩ fun c hc => (hend c hc).1

theorem readNumeral_text {n : Numeral} (hproper : n.Proper) (hend : NumberEnd t) :
    readNumeral (n.text ++ t) = some (n, t) := by
  obtain ⟨whole, places, exponent⟩ := n
  have hpower := readPower_powerText hproper.exponent hend
  generalize hrest : Numeral.powerText exponent ++ t = rest at hpower
  have hplaces := readPlaces_append hproper.places hpower.2
  have hwhole : readDigits (whole ++ (Numeral.placesText places ++ rest)) =
      some (whole, Numeral.placesText places ++ rest) := by
    refine readDigits_append hproper.whole.1 fun c hc => ?_
    rw [Numeral.placesText] at hc
    split at hc
    · exact (hpower.2 c hc).1
    · cases hc
      rfl
  have hzero : ¬ (whole.head? = some '0' ∧ whole ≠ ['0']) := by
    rintro ⟨hhead, hmore⟩
    cases whole with
    | nil => cases hhead
    | cons c ds =>
      cases hhead
      exact hmore (by rw [hproper.whole.2 ds rfl])
  have htext : Numeral.text ⟨whole, places, exponent⟩ ++ t =
      whole ++ (Numeral.placesText places ++ rest) := by
    rw [Numeral.text, ← hrest]
    simp only [List.append_assoc]
  rw [htext, readNumeral]
  simp [hwhole, hzero, hplaces, hpower.1]

end Numerals

/-! ## Members -/

theorem isBlank_of_mem_newLine {c : Char} {depth : Nat} (hc : c ∈ (newLine depth).toList) :
    isBlank c := by
  rw [newLine, String.toList_append, String.pushn_eq_repeat_push] at hc
  rcases List.mem_append.1 hc with hc | hc
  · rw [List.mem_singleton.1 hc]
    rfl
  · generalize 2 * depth = n at hc
    induction n with
    | zero => cases hc
    | succ n ih =>
      rw [Nat.repeat, String.toList_push] at hc
      rcases List.mem_append.1 hc with hc | hc
      · exact ih hc
      · rw [List.mem_singleton.1 hc]
        rfl

theorem skip_cons {c : Char} (hc : isBlank c = false) (t : List Char) : skip (c :: t) = c :: t := by
  rw [skip, List.dropWhile_cons_of_neg (by simp [hc])]

theorem skip_newLine (depth : Nat) {c : Char} (hc : isBlank c = false) (t : List Char) :
    skip ((newLine depth).toList ++ c :: t) = c :: t := by
  rw [skip, List.dropWhile_append_of_pos fun c => isBlank_of_mem_newLine]
  exact skip_cons hc t

/-- A text that a reader takes for a value, whatever follows that does not go on with a number. -/
structure Reads {α : Type} (read : Reader α) (text : String) (a : α) : Prop where
  front : ∃ c t, text.toList = c :: t ∧ isBlank c = false ∧ c ≠ ']' ∧ c ≠ '\x7d'
  result : ∀ t, NumberEnd t → read (text.toList ++ t) = some (a, t)

/-- The lines of a bracketed list from the first character of a member on, up to the closing bracket. -/
def listed (depth : Nat) (closing : Char) : List String → List Char
  | [] => (newLine depth).toList ++ [closing]
  | line :: lines =>
    ',' :: (newLine (depth + 1)).toList ++ line.toList ++ listed depth closing lines

theorem toList_bracketed (opening : String) {closing : String} {c : Char}
    (hclosing : closing.toList = [c]) (depth : Nat) (line : String) (lines : List String) :
    (bracketed opening closing depth (line :: lines)).toList =
      opening.toList ++ ((newLine (depth + 1)).toList ++ (line.toList ++ listed depth c lines)) := by
  have hlines : [','].intercalate (((line :: lines).map (newLine (depth + 1) ++ ·)).map String.toList) ++
      ((newLine depth).toList ++ [c]) =
      (newLine (depth + 1)).toList ++ (line.toList ++ listed depth c lines) := by
    induction lines generalizing line with
    | nil => simp [listed]
    | cons next lines ih =>
      have hnext := ih next
      rw [List.map_cons, List.map_cons] at hnext
      rw [List.map_cons, List.map_cons, List.map_cons, List.map_cons, List.intercalate_cons_cons,
        List.append_assoc, hnext, String.toList_append, listed]
      simp
  have hcomma : ",".toList = [','] := rfl
  simp only [bracketed, String.toList_append, String.toList_intercalate, hcomma, hclosing,
    List.append_assoc, hlines]

section Bracketed
variable {α : Type} {read : Reader α} {closing : Char}

theorem numberEnd_listed (depth : Nat) (closing : Char) (lines : List String) (t : List Char) :
    NumberEnd (listed depth closing lines ++ t) := by
  intro c hc
  cases lines with
  | nil =>
    rw [listed, newLine, String.toList_append] at hc
    cases hc
    decide
  | cons line lines =>
    cases hc
    decide

theorem lines_length_lt_listed (depth : Nat) (closing : Char) (lines : List String) :
    lines.length < (listed depth closing lines).length := by
  induction lines with
  | nil => simp [listed]
  | cons line lines ih =>
    simp only [listed, List.cons_append, List.length_cons, List.length_append]
    omega

theorem line_length_lt_listed (depth : Nat) (closing : Char) {line : String} {lines : List String}
    (hline : line ∈ lines) : line.length < (listed depth closing lines).length := by
  induction lines with
  | nil => cases hline
  | cons next lines ih =>
    simp only [listed, List.cons_append, List.length_cons, List.length_append, String.length_toList]
    rcases List.mem_cons.1 hline with rfl | hline
    · omega
    · have hrest := ih hline
      omega

/-- What a reader takes does not start with a blank, so that it is not skipped. -/
theorem Reads.skip_newLine {line : String} {a : α} (h : Reads read line a) (depth : Nat) (t : List Char) :
    skip ((newLine depth).toList ++ (line.toList ++ t)) = line.toList ++ t := by
  obtain ⟨c, u, hline, hblank, -⟩ := h.front
  rw [hline, List.cons_append, Json.skip_newLine depth hblank]

theorem readSequence_listed (hclosing : closing = ']' ∨ closing = '\x7d') {line : String} {a : α}
    {lines : List String} {as : List α} (hread : Reads read line a)
    (hrest : List.Forall₂ (Reads read) lines as) (depth : Nat) (t : List Char) {n : Nat}
    (hn : lines.length < n) :
    readSequence closing read n (line.toList ++ (listed depth closing lines ++ t)) =
      some (a :: as, t) := by
  have hblank : isBlank closing = false := by rcases hclosing with rfl | rfl <;> rfl
  have hcomma : closing ≠ ',' := by rcases hclosing with rfl | rfl <;> decide
  induction hrest generalizing line a n with
  | nil =>
    obtain ⟨n, rfl⟩ := Nat.exists_eq_add_one_of_ne_zero (Nat.zero_lt_of_lt hn).ne'
    have hmember := hread.result _ (numberEnd_listed depth closing [] t)
    have hskip := skip_newLine depth hblank t
    rw [readSequence, hmember]
    simp only [listed, List.append_assoc, List.singleton_append, hskip, Option.bind_eq_bind,
      Option.bind_some, if_neg hcomma, if_true]
  | @cons next b lines bs hnext hrest ih =>
    obtain ⟨n, rfl⟩ := Nat.exists_eq_add_one_of_ne_zero (Nat.zero_lt_of_lt hn).ne'
    have hmember := hread.result _ (numberEnd_listed depth closing (next :: lines) t)
    have hmembers := ih hnext (Nat.lt_of_succ_lt_succ hn)
    have hskip := hnext.skip_newLine (depth + 1) (listed depth closing lines ++ t)
    have hlisted : listed depth closing (next :: lines) ++ t =
        ',' :: ((newLine (depth + 1)).toList ++ (next.toList ++ (listed depth closing lines ++ t))) := by
      simp only [listed, List.cons_append, List.append_assoc]
    have hseparator := fun t => skip_cons (c := ',') rfl t
    rw [hlisted] at hmember
    rw [hlisted, readSequence, hmember]
    simp only [hseparator, hskip, hmembers, Option.bind_eq_bind, Option.bind_some, if_true]

theorem readBracketed_bracketed (hclosing : closing = ']' ∨ closing = '\x7d') (opening : String)
    {closingText : String} (htext : closingText.toList = [closing]) {lines : List String} {as : List α}
    (h : List.Forall₂ (Reads read) lines as) (depth : Nat) (t : List Char) :
    ∃ u, (bracketed opening closingText depth lines).toList ++ t = opening.toList ++ u ∧
      readBracketed closing read u = some (as, t) := by
  cases h with
  | nil =>
    refine ⟨closing :: t, ?_, ?_⟩
    · rw [bracketed, String.toList_append, htext, List.append_assoc, List.singleton_append]
    · have hblank : isBlank closing = false := by rcases hclosing with rfl | rfl <;> rfl
      rw [readBracketed, skip_cons hblank]
      simp
  | @cons line a lines as hread hrest =>
    refine ⟨(newLine (depth + 1)).toList ++ (line.toList ++ (listed depth closing lines ++ t)), ?_, ?_⟩
    · rw [toList_bracketed opening htext]
      simp only [List.append_assoc]
    · have hskip := hread.skip_newLine (depth + 1) (listed depth closing lines ++ t)
      have hfirst : (line.toList ++ (listed depth closing lines ++ t)).head? ≠ some closing := by
        obtain ⟨c, u, hline, -, hsquare, hcurly⟩ := hread.front
        rw [hline, List.cons_append, List.head?_cons, Ne, Option.some.injEq]
        rintro rfl
        exact hclosing.elim hsquare hcurly
      have hlength := lines_length_lt_listed depth closing lines
      rw [readBracketed, hskip, if_neg hfirst]
      refine readSequence_listed hclosing hread hrest depth t ?_
      simp only [List.length_append]
      omega

theorem Reads.pair {line : String} {a : α} (h : Reads read line a) (key : String) :
    Reads (readPair read) (quoted key ++ ": " ++ line) (key, a) := by
  have hkey := toList_quoted key
  refine ⟨⟨'\"', key.toList.flatMap escaped ++ ['\"'] ++ (": ".toList ++ line.toList), ?_, by decide⟩,
    fun t ht => ?_⟩
  · simp only [String.toList_append, hkey, List.cons_append, List.append_assoc]
  · have hread := readString_quoted key (':' :: ' ' :: (line.toList ++ t))
    have hcolon : skip (':' :: ' ' :: (line.toList ++ t)) = ':' :: ' ' :: (line.toList ++ t) :=
      skip_cons rfl _
    have hspace : skip (' ' :: (line.toList ++ t)) = line.toList ++ t := by
      obtain ⟨c, u, hline, hblank, -⟩ := h.front
      rw [hline]
      exact skip_cons hblank _
    have htext : (quoted key ++ ": " ++ line).toList ++ t =
        (quoted key).toList ++ ':' :: ' ' :: (line.toList ++ t) := by
      simp only [String.toList_append, List.append_assoc]
      rfl
    rw [htext, readPair, hread]
    simp [hcolon, hspace, h.result t ht]

end Bracketed

/-! ## Documents -/

mutual

/-- What a document holds. -/
def value : Json → Value
  | count n => .whole n
  | number x => .real x
  | text s => .text s
  | array items => .array (itemValues items)
  | object members => .object (memberValues members)

/-- What the items of an array hold. -/
def itemValues : List Json → List Value
  | [] => []
  | item :: items => item.value :: itemValues items

/-- What the members of an object hold. -/
def memberValues : List (String × Json) → List (String × Value)
  | [] => []
  | (key, member) :: members => (key, member.value) :: memberValues members

end

mutual

/-- Whether all numbers of a document that may have a point are numbers of the format. -/
def Held : Json → Prop
  | number x => x.Held
  | array items => ItemsHeld items
  | object members => MembersHeld members
  | _ => True

/-- Whether the numbers of the items of an array are numbers of the format. -/
def ItemsHeld : List Json → Prop
  | [] => True
  | item :: items => item.Held ∧ ItemsHeld items

/-- Whether the numbers of the members of an object are numbers of the format. -/
def MembersHeld : List (String × Json) → Prop
  | [] => True
  | (_, member) :: members => member.Held ∧ MembersHeld members

end

theorem exists_digit {n : Numeral} (hn : n.Proper) : ∃ c u, n.text = c :: u ∧ c.isDigit := by
  obtain ⟨hne, hdigits⟩ := hn.whole.1
  cases hwhole : n.whole with
  | nil => exact absurd hwhole hne
  | cons c ds =>
    refine ⟨c, ds ++ Numeral.placesText n.places ++ Numeral.powerText n.exponent, ?_,
      hdigits c (by rw [hwhole]; exact .head _)⟩
    rw [Numeral.text, hwhole]
    rfl

/-- A numeral with its sign is read as a number. -/
theorem reads_numeral {n : Numeral} (hn : n.Proper) (negative : Bool) {s : String}
    (hs : s.toList = (if negative then ['-'] else []) ++ n.text) (fuel : Nat) :
    Reads (readValue (fuel + 1)) s (numberValue negative n) := by
  obtain ⟨c, u, htext, hdigit⟩ := exists_digit hn
  have hother : ∀ d : Char, d.isDigit = false → c ≠ d := by
    rintro d hd rfl
    rw [hdigit] at hd
    cases hd
  have hnumber : ∀ t, NumberEnd t →
      readNumber negative (n.text ++ t) = some (numberValue negative n, t) := by
    intro t ht
    rw [readNumber, readNumeral_text hn ht]
    rfl
  cases negative with
  | true =>
    refine ⟨⟨'-', n.text, hs, by decide⟩, fun t ht => ?_⟩
    rw [hs, ← hnumber t ht]
    rfl
  | false =>
    refine ⟨⟨c, u, hs.trans htext, ?_, hother _ rfl, hother _ rfl⟩, fun t ht => ?_⟩
    · simp [isBlank, hother]
    · have hread : readValue (fuel + 1) (c :: (u ++ t)) = readNumber false (c :: (u ++ t)) := by
        rw [readValue, if_neg (hother _ rfl), if_neg (hother _ rfl), if_neg (hother _ rfl),
          if_neg (hother _ rfl), if_pos hdigit]
      have hwhole := hnumber t ht
      rw [htext, List.cons_append] at hwhole
      rw [hs.trans htext, List.cons_append, hread, hwhole]

theorem reads_count (n fuel : Nat) : Reads (readValue (fuel + 1)) (toString n) (.whole n) := by
  have hproper : Numeral.Proper ⟨digitsOf n, [], none⟩ := ⟨leading_digitsOf n, by simp, by simp⟩
  have hvalue : numberValue false ⟨digitsOf n, [], none⟩ = .whole n := by
    rw [numberValue, if_pos ⟨rfl, rfl⟩, digitsValue_digitsOf]
    rfl
  rw [← hvalue]
  refine reads_numeral hproper false ?_ fuel
  rw [Nat.toString_eq_ofList_toDigits, String.toList_ofList]
  simp [Numeral.text, Numeral.placesText, Numeral.powerText, digitsOf]

theorem reads_number {x : Binary64} (hx : x.Held) (fuel : Nat) :
    Reads (readValue (fuel + 1)) x.scientific (.real x) := by
  obtain ⟨negative, steps, m, e, rfl, hsteps, hlimit⟩ := hx
  obtain ⟨n, htext, hproper, hwhole, hdecimal⟩ := exists_numeral steps
  have hrounded := rounded_shortest hsteps
  rw [← hdecimal] at hrounded
  have hvalue : numberValue negative n = .real (.finite negative steps) := by
    rw [numberValue, if_neg hwhole, ofDecimal_eq hrounded hlimit]
  rw [← hvalue]
  refine reads_numeral hproper negative ?_ fuel
  rw [scientific, withSign, String.toList_ofList, htext]

theorem reads_string (s : String) (fuel : Nat) : Reads (readValue (fuel + 1)) (quoted s) (.text s) := by
  have hs := toList_quoted s
  refine ⟨⟨'\"', s.toList.flatMap escaped ++ ['\"'], hs, by decide⟩, fun t _ => ?_⟩
  have hread : ∀ u, readValue (fuel + 1) ('\"' :: u) =
      (readString ('\"' :: u)).map fun r => (.text r.1, r.2) := fun u => rfl
  have hstring := readString_quoted s t
  rw [hs, List.cons_append] at hstring ⊢
  rw [hread, hstring]
  rfl

section Nested
variable {fuel depth : Nat}

theorem reads_array {lines : List String} {values : List Value}
    (h : List.Forall₂ (Reads (readValue fuel)) lines values) :
    Reads (readValue (fuel + 1)) (bracketed "[" "]" depth lines) (.array values) := by
  have hread := readBracketed_bracketed (.inl rfl) "[" (show "]".toList = [']'] from rfl) h depth
  obtain ⟨front, hfront, -⟩ := hread []
  rw [List.append_nil] at hfront
  refine ⟨⟨'[', front, hfront, by decide⟩, fun t _ => ?_⟩
  obtain ⟨u, htext, hbracketed⟩ := hread t
  have harray : readValue (fuel + 1) ('[' :: u) =
      (readBracketed ']' (readValue fuel) u).map fun r => (.array r.1, r.2) := rfl
  rw [hbracketed] at harray
  exact (congrArg (readValue (fuel + 1)) htext).trans harray

theorem reads_object {lines : List String} {members : List (String × Value)}
    (h : List.Forall₂ (Reads (readPair (readValue fuel))) lines members) :
    Reads (readValue (fuel + 1)) (bracketed "\x7b" "\x7d" depth lines) (.object members) := by
  have hread := readBracketed_bracketed (.inr rfl) "\x7b" (show "\x7d".toList = ['\x7d'] from rfl) h depth
  obtain ⟨front, hfront, -⟩ := hread []
  rw [List.append_nil] at hfront
  refine ⟨⟨'\x7b', front, hfront, by decide⟩, fun t _ => ?_⟩
  obtain ⟨u, htext, hbracketed⟩ := hread t
  have hobject : readValue (fuel + 1) ('\x7b' :: u) =
      (readBracketed '\x7d' (readPair (readValue fuel)) u).map fun r => (.object r.1, r.2) := rfl
  rw [hbracketed] at hobject
  exact (congrArg (readValue (fuel + 1)) htext).trans hobject

end Nested

theorem length_lt_bracketed {line : String} {lines : List String} (hline : line ∈ lines)
    (opening : String) {closing : String} {c : Char} (hclosing : closing.toList = [c]) (depth : Nat) :
    line.length < (bracketed opening closing depth lines).length := by
  cases lines with
  | nil => cases hline
  | cons first lines =>
    have htext := congrArg List.length (toList_bracketed opening hclosing depth first lines)
    have hlines := lines_length_lt_listed depth c lines
    simp only [String.length_toList, List.length_append] at htext
    rcases List.mem_cons.1 hline with rfl | hline
    · omega
    · have hlisted := line_length_lt_listed depth c hline
      omega

mutual

theorem reads_renderAt (document : Json) (hheld : document.Held) (depth : Nat) {fuel : Nat}
    (hfuel : (renderAt depth document).length < fuel) :
    Reads (readValue fuel) (renderAt depth document) document.value := by
  obtain ⟨fuel, rfl⟩ := Nat.exists_eq_add_one_of_ne_zero (Nat.zero_lt_of_lt hfuel).ne'
  cases document with
  | count n =>
    rw [renderAt, value]
    exact reads_count n fuel
  | number x =>
    rw [renderAt, value]
    exact reads_number hheld fuel
  | text s =>
    rw [renderAt, value]
    exact reads_string s fuel
  | array items =>
    rw [renderAt] at hfuel ⊢
    rw [value]
    exact reads_array (reads_renderItems items hheld (depth + 1) fun line hline =>
      (length_lt_bracketed hline "[" rfl depth).trans_le (Nat.le_of_lt_succ hfuel))
  | object members =>
    rw [renderAt] at hfuel ⊢
    rw [value]
    exact reads_object (reads_renderMembers members hheld (depth + 1) fun line hline =>
      (length_lt_bracketed hline "\x7b" rfl depth).trans_le (Nat.le_of_lt_succ hfuel))

theorem reads_renderItems (items : List Json) (hheld : ItemsHeld items) (depth : Nat) {fuel : Nat}
    (hfuel : ∀ line ∈ renderItems depth items, line.length < fuel) :
    List.Forall₂ (Reads (readValue fuel)) (renderItems depth items) (itemValues items) := by
  match items with
  | [] => exact .nil
  | item :: items =>
    simp only [renderItems, itemValues] at hfuel ⊢
    exact .cons (reads_renderAt item hheld.1 depth (hfuel _ (.head _)))
      (reads_renderItems items hheld.2 depth fun line hline => hfuel line (.tail _ hline))

theorem reads_renderMembers (members : List (String × Json)) (hheld : MembersHeld members) (depth : Nat)
    {fuel : Nat} (hfuel : ∀ line ∈ renderMembers depth members, line.length < fuel) :
    List.Forall₂ (Reads (readPair (readValue fuel))) (renderMembers depth members)
      (memberValues members) := by
  match members with
  | [] => exact .nil
  | (key, member) :: members =>
    simp only [renderMembers, memberValues] at hfuel ⊢
    have hmember := hfuel _ (.head _)
    rw [String.length_append] at hmember
    exact .cons ((reads_renderAt member hheld.1 depth (by omega)).pair key)
      (reads_renderMembers members hheld.2 depth fun line hline => hfuel line (.tail _ hline))

end

/-- The text of a document is read as what the document holds. -/
theorem read?_render {document : Json} (hheld : document.Held) :
    Value.read? document.render = some document.value := by
  have hreads := reads_renderAt document hheld 0 (Nat.lt_succ_self _)
  obtain ⟨c, t, hfront, hblank, -⟩ := hreads.front
  have hresult := hreads.result [] (by simp [NumberEnd])
  have hskip : skip (renderAt 0 document).toList = (renderAt 0 document).toList ++ [] := by
    rw [List.append_nil, hfront, skip_cons hblank]
  rw [Value.read?, render, hskip, hresult]
  rfl

end ColumnAudit.Json
