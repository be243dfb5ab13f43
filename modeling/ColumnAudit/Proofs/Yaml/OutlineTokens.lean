import ColumnAudit.Proofs.Yaml.KeyToken

/-! # The tokens of outlines

The lines of an outline are read as the tokens of its texts, sequences and mappings, in order
(`tokens_document`). Three kinds of pieces of text are told apart, with what they lead to: what follows a key,
a dash or a colon (`ReadsValue`), one or more entries of a collection whose first one has been indented
(`ReadsEntries`), and all further lines of a collection (`ReadsLines`).
-/

namespace ColumnAudit.Yaml.Outline
open TokenState
set_option autoImplicit false

/-! ## Tokens -/

/-- Where the value of a pair stands. -/
def placeOf (key : String) : Placement := if isSimpleKey key then .below else .beside

mutual

/-- The tokens of what follows a key, a dash or a colon. -/
def valueKinds (place : Placement) : Outline → List TokenKind
  | text s => [.scalar s (formOf s)]
  | sequence [] => [.flowSequenceStart, .flowSequenceEnd]
  | sequence items =>
    if place = .below then itemKinds items
    else .blockSequenceStart :: (itemKinds items ++ [.blockEnd])
  | mapping [] => [.flowMappingStart, .flowMappingEnd]
  | mapping pairs => .blockMappingStart :: (pairKinds pairs ++ [.blockEnd])

/-- The tokens of the items of a sequence. -/
def itemKinds : List Outline → List TokenKind
  | [] => []
  | item :: items => .blockEntry :: (valueKinds .beside item ++ itemKinds items)

/-- The tokens of the pairs of a mapping. -/
def pairKinds : List (String × Outline) → List TokenKind
  | [] => []
  | (key, value) :: pairs =>
    .key :: .scalar key (formOf key) :: .value ::
      (valueKinds (placeOf key) value ++ pairKinds pairs)

end

/-! ## Pieces of text -/

/-- A value is read from where it stands behind a key, a dash or a colon. -/
def ReadsValue (value : Outline) : Prop :=
  ∀ (place : Placement) (indent column k : Nat) (tail : List Char) (outer : List Int)
    (kinds : List TokenKind), indent < column → (place = .beside → column = indent + 1) →
    k ≤ indent → StartsLine k tail →
    Leads ⟨indent, outer, place == .beside, kinds, column,
        behind place indent value ++ (spaces k ++ tail)⟩
      ⟨indent, outer, true, kinds ++ valueKinds place value, k, tail⟩

/-- Entries of a collection, from the first character of the first one on. -/
structure ReadsEntries (start : TokenKind) (entries : Nat → List Char) (new : List TokenKind) :
    Prop where
  starts : ∀ column, ∃ c rest, entries column = c :: rest ∧ StartsToken c
  leads : ∀ {indent : Int} {outer outer' : List Int} {kinds kinds' : List TokenKind}
    {column k : Nat} {tail : List Char}, Opens start column indent outer kinds outer' kinds' →
    k ≤ column → StartsLine k tail →
    Leads ⟨indent, outer, true, kinds, column, entries column ++ (spaces k ++ tail)⟩
      ⟨column, outer', true, kinds' ++ new, k, tail⟩

/-- The lines of further entries of a collection, with their indentation. -/
def furtherLines (column : Nat) (lines : List (List Char)) : List Char :=
  lines.flatMap (spaces column ++ ·)

/-- Further entries of a collection, from the start of a line on. -/
def ReadsLines (lines : Nat → List (List Char)) (new : List TokenKind) : Prop :=
  ∀ (column k : Nat) (tail : List Char), k ≤ column → StartsLine k tail → ∃ k' tail',
    furtherLines column (lines column) ++ (spaces k ++ tail) = spaces k' ++ tail' ∧
    k' ≤ column ∧ StartsLine k' tail' ∧
    ∀ (outer : List Int) (kinds : List TokenKind),
      Leads ⟨column, outer, true, kinds, k', tail'⟩ ⟨column, outer, true, kinds ++ new, k, tail⟩

theorem readsLines_nil : ReadsLines (fun _ => []) [] := by
  intro column k tail hk htail
  refine ⟨k, tail, rfl, hk, htail, fun outer kinds => ?_⟩
  rw [List.append_nil]
  exact Leads.refl _

variable {start : TokenKind} {line entries : Nat → List Char} {lines : Nat → List (List Char)}
  {new new' : List TokenKind}

theorem ReadsEntries.startsLine (h : ReadsEntries start entries new) (column : Nat)
    (tail : List Char) : StartsLine column (entries column ++ tail) := by
  obtain ⟨c, rest, hentries, hc⟩ := h.starts column
  rw [hentries]
  exact hc.line column _

theorem ReadsEntries.append (hentry : ReadsEntries start line new) (hlines : ReadsLines lines new') :
    ReadsEntries start (fun column => line column ++ furtherLines column (lines column))
      (new ++ new') := by
  refine ⟨fun column => ?_, fun {indent outer outer' kinds kinds' column k tail} hopens hk htail => ?_⟩
  · obtain ⟨c, rest, hline, hc⟩ := hentry.starts column
    exact ⟨c, rest ++ furtherLines column (lines column), by rw [hline]; rfl, hc⟩
  · obtain ⟨k', tail', htext, hk', htail', hrest⟩ := hlines column k tail hk htail
    rw [List.append_assoc, htext, ← List.append_assoc kinds']
    exact (hentry.leads hopens hk' htail').trans (hrest outer' (kinds' ++ new))

theorem ReadsEntries.readsLines (hentry : ReadsEntries start line new) (hlines : ReadsLines lines new') :
    ReadsLines (fun column => line column :: lines column) (new ++ new') := by
  intro column k tail hk htail
  have hall := hentry.append hlines
  refine ⟨column, line column ++ furtherLines column (lines column) ++ (spaces k ++ tail), ?_,
    Nat.le_refl _, hall.startsLine column _, fun outer kinds => ?_⟩
  · rw [furtherLines, List.flatMap_cons, ← furtherLines]
    simp only [List.append_assoc]
  · exact hall.leads (.further outer kinds) hk htail

/-! ## Collections behind a key, a dash or a colon -/

/-- Entries of a collection of their own, with two columns of indentation. -/
theorem ReadsEntries.leads_laidOut (hentry : ReadsEntries start line new)
    (hlines : ReadsLines lines new') {place : Placement} {indent column k : Nat} {tail : List Char}
    (hbeside : place = .beside → column = indent + 1) (hk : k ≤ indent) (htail : StartsLine k tail)
    (outer : List Int) (kinds : List TokenKind) :
    Leads ⟨indent, outer, place == .beside, kinds, column,
        laidOut place (indent + 2) (line (indent + 2) :: lines (indent + 2)) ++ (spaces k ++ tail)⟩
      ⟨indent, outer, true, kinds ++ start :: ((new ++ new') ++ [.blockEnd]), k, tail⟩ := by
  have hall := hentry.append hlines
  have hentries := hall.leads (.first indent outer kinds (by omega)) (by omega : k ≤ indent + 2) htail
  have hclose : Leads
      ⟨(indent + 2 : Nat), indent :: outer, true, kinds ++ [start] ++ (new ++ new'), k, tail⟩
      ⟨indent, outer, true, kinds ++ [start] ++ (new ++ new') ++ [.blockEnd], k, tail⟩ :=
    leads_close htail.starts (by omega)
  have hkinds : kinds ++ [start] ++ (new ++ new') ++ [.blockEnd] =
      kinds ++ start :: ((new ++ new') ++ [.blockEnd]) := by simp
  rw [hkinds] at hclose
  cases place with
  | beside =>
    rw [hbeside rfl]
    exact leads_space.trans (hentries.trans hclose)
  | below =>
    have htext : laidOut .below (indent + 2) (line (indent + 2) :: lines (indent + 2)) ++
        (spaces k ++ tail) = '\n' :: (spaces (indent + 2) ++ (line (indent + 2) ++
          furtherLines (indent + 2) (lines (indent + 2)) ++ (spaces k ++ tail))) := by
      simp [laidOut, furtherLines]
    rw [htext]
    exact (leads_line (indent + 2)).trans (hentries.trans hclose)

/-- Entries at the indentation of the collection they stand in. -/
theorem ReadsEntries.leads_indentless (hentry : ReadsEntries start line new)
    (hlines : ReadsLines lines new') {indent column k : Nat} {tail : List Char} (hk : k ≤ indent)
    (htail : StartsLine k tail) (outer : List Int) (allowed : Bool) (kinds : List TokenKind) :
    Leads ⟨indent, outer, allowed, kinds, column,
        laidOut .below indent (line indent :: lines indent) ++ (spaces k ++ tail)⟩
      ⟨indent, outer, true, kinds ++ (new ++ new'), k, tail⟩ := by
  have hentries := (hentry.append hlines).leads (.further outer kinds) hk htail
  have htext : laidOut .below indent (line indent :: lines indent) ++ (spaces k ++ tail) =
      '\n' :: (spaces indent ++ (line indent ++ furtherLines indent (lines indent) ++
        (spaces k ++ tail))) := by
    simp [laidOut, furtherLines]
  rw [htext]
  exact (leads_line indent).trans hentries

/-! ## Values and entries -/

theorem ended_cons (c : Char) {cs : List Char} (h : cs ≠ []) : ended (c :: cs) = c :: ended cs := by
  obtain ⟨d, cs, rfl⟩ := List.exists_cons_of_ne_nil h
  unfold ended
  rw [List.getLast?_cons_cons]
  split <;> rfl

theorem written_ne_nil (margin : Nat) (s : String) : written margin s ≠ [] := by
  obtain ⟨c, rest, hwritten, -⟩ := (formed s).starts margin
  rw [written, hwritten]
  exact List.cons_ne_nil _ _

theorem behind_text (place : Placement) (indent : Nat) (s : String) :
    behind place indent (text s) = ' ' :: ended (written (indent + 2) s) := by
  rw [behind, ended_cons ' ' (written_ne_nil _ s)]

theorem behind_sequence (place : Placement) (indent : Nat) (item : Outline) (items : List Outline) :
    behind place indent (sequence (item :: items)) =
      let inner := if place = .below then indent else indent + 2
      laidOut place inner (('-' :: behind .beside inner item) :: sequenceLines inner items) := by
  rw [behind, sequenceLines]
  exact fun h => absurd h (List.cons_ne_nil _ _)

/-- The text of a pair. -/
def pairLine (key : String) (value : Outline) (column : Nat) : List Char :=
  if isSimpleKey key then written (column + 2) key ++ ':' :: behind .below column value
  else
    '?' :: ended (' ' :: written (column + 2) key) ++ spaces column ++
      ':' :: behind .beside column value

theorem mappingLines_cons (column : Nat) (key : String) (value : Outline)
    (pairs : List (String × Outline)) :
    mappingLines column ((key, value) :: pairs) =
      pairLine key value column :: mappingLines column pairs := by
  rw [mappingLines, pairLine]

theorem behind_mapping (place : Placement) (indent : Nat) (key : String) (value : Outline)
    (pairs : List (String × Outline)) :
    behind place indent (mapping ((key, value) :: pairs)) =
      laidOut place (indent + 2)
        (pairLine key value (indent + 2) :: mappingLines (indent + 2) pairs) := by
  rw [behind, mappingLines_cons]
  exact fun h => absurd h (List.cons_ne_nil _ _)

theorem laidOut_front (place : Placement) (indent : Nat) (line : List Char)
    (lines : List (List Char)) : ∃ c rest, laidOut place indent (line :: lines) = c :: rest ∧
      endsWord (some c) = true := by
  cases place with
  | beside => exact ⟨_, _, rfl, by decide⟩
  | below => exact ⟨_, _, rfl, by decide⟩

theorem behind_front (place : Placement) (indent : Nat) (value : Outline) :
    ∃ c rest, behind place indent value = c :: rest ∧ endsWord (some c) = true := by
  match value with
  | text s => exact ⟨_, _, behind_text place indent s, by decide⟩
  | sequence [] => exact ⟨' ', _, by rw [behind]; rfl, by decide⟩
  | sequence (item :: items) =>
    rw [behind_sequence]
    exact laidOut_front ..
  | mapping [] => exact ⟨' ', _, by rw [behind]; rfl, by decide⟩
  | mapping ((key, value) :: pairs) =>
    rw [behind_mapping]
    exact laidOut_front ..

theorem endsWord_behind (place : Placement) (indent : Nat) (value : Outline) (rest : List Char) :
    endsWord (behind place indent value ++ rest).head? = true := by
  obtain ⟨c, front, hbehind, hc⟩ := behind_front place indent value
  rw [hbehind]
  exact hc

theorem readsValue_text (s : String) : ReadsValue (text s) := by
  intro place indent column k tail outer kinds hcolumn hbeside hk htail
  rw [behind_text, valueKinds]
  exact leads_space.trans (leads_scalar s (Nat.lt_succ_of_lt hcolumn) hk htail)

theorem readsEntries_item {item : Outline} (h : ReadsValue item) :
    ReadsEntries .blockSequenceStart (fun column => '-' :: behind .beside column item)
      (.blockEntry :: valueKinds .beside item) := by
  refine ⟨fun column => ⟨_, _, rfl, by constructor <;> decide⟩,
    fun {indent outer outer' kinds kinds' column k tail} hopens hk htail => ?_⟩
  have hdash := leads_dash hopens (endsWord_behind .beside column item (spaces k ++ tail))
  have hvalue := h .beside column (column + 1) k tail outer' (kinds' ++ [.blockEntry])
    (Nat.lt_succ_self _) (fun _ => rfl) hk htail
  rw [List.append_assoc] at hvalue
  exact hdash.trans hvalue

theorem readsEntries_pair (key : String) {value : Outline} (h : ReadsValue value) :
    ReadsEntries .blockMappingStart (pairLine key value)
      (.key :: .scalar key (formOf key) :: .value :: valueKinds (placeOf key) value) := by
  -- A simple key stands in front of its colon; any other has a line of its own, and so has its colon.
  by_cases hsimple : isSimpleKey key = true
  · have hline : pairLine key value = fun column =>
        written (column + 2) key ++ ':' :: behind .below column value := by
      funext column
      rw [pairLine, if_pos hsimple]
    have hplace : placeOf key = .below := if_pos hsimple
    rw [hline, hplace]
    refine ⟨fun column => ?_, fun {indent outer outer' kinds kinds' column k tail} hopens hk htail => ?_⟩
    · obtain ⟨c, rest, hwritten, hc⟩ := (formed key).starts (column + 2)
      exact ⟨c, _, by rw [written, hwritten]; rfl, hc⟩
    · have hkey := leads_key key hsimple hopens (Nat.succ_pos (column + 1))
        (endsWord_behind .below column value (spaces k ++ tail))
      have hvalue := h .below column (column + (written (column + 2) key).length + 1) k tail outer'
        (kinds' ++ [.key, .scalar key (formOf key), .value]) (by omega)
        (fun heq => absurd heq (by decide)) hk htail
      rw [List.append_assoc] at hvalue ⊢
      exact hkey.trans hvalue
  · have hline : pairLine key value = fun column =>
        '?' :: ' ' :: (ended (written (column + 2) key) ++ (spaces column ++
          ':' :: behind .beside column value)) := by
      funext column
      rw [pairLine, if_neg hsimple, ended_cons ' ' (written_ne_nil _ key)]
      simp
    have hplace : placeOf key = .beside := if_neg hsimple
    rw [hline, hplace]
    refine ⟨fun column => ⟨_, _, rfl, by constructor <;> decide⟩,
      fun {indent outer outer' kinds kinds' column k tail} hopens hk htail => ?_⟩
    have hcolon : StartsLine column (':' :: (behind .beside column value ++ (spaces k ++ tail))) :=
      StartsToken.line (by constructor <;> decide) column _
    have hquestion : Leads _ ⟨column, outer', true, kinds' ++ [.key], column + 1, ' ' :: (ended
        (written (column + 2) key) ++ (spaces column ++ ':' :: (behind .beside column value ++
          (spaces k ++ tail))))⟩ := leads_question hopens rfl
    have hkey : Leads ⟨column, outer', true, kinds' ++ [.key], column + 1 + 1, _⟩ _ :=
      leads_scalar key (by omega : column < column + 1 + 1) (Nat.le_refl column) hcolon
    have hvalue := h .beside column (column + 1) k tail outer'
      (kinds' ++ [.key] ++ [.scalar key (formOf key)] ++ [.value]) (Nat.lt_succ_self _)
      (fun _ => rfl) hk htail
    have hread := hquestion.trans (leads_space.trans (hkey.trans
      ((leads_colon (endsWord_behind .beside column value _)).trans hvalue)))
    simpa using hread

mutual

/-- What follows a key, a dash or a colon is read as the value that is meant. -/
theorem readsValue : ∀ value, ReadsValue value
  | text s => readsValue_text s
  | sequence [] => by
    intro place indent column k tail outer kinds hcolumn hbeside hk htail
    rw [behind, valueKinds]
    exact leads_space.trans (leads_brackets squareBrackets (by omega) htail)
  | sequence (item :: items) => by
    intro place indent column k tail outer kinds hcolumn hbeside hk htail
    have hfirst := readsEntries_item (readsValue item)
    have hlines := readsLines_items items
    rw [behind_sequence, valueKinds, itemKinds]
    cases place with
    | below => exact hfirst.leads_indentless hlines hk htail outer false kinds
    | beside => exact hfirst.leads_laidOut hlines hbeside hk htail outer kinds
    · exact fun h => absurd h (List.cons_ne_nil _ _)
  | mapping [] => by
    intro place indent column k tail outer kinds hcolumn hbeside hk htail
    rw [behind, valueKinds]
    exact leads_space.trans (leads_brackets curlyBrackets (by omega) htail)
  | mapping ((key, value) :: pairs) => by
    intro place indent column k tail outer kinds hcolumn hbeside hk htail
    have hfirst := readsEntries_pair key (readsValue value)
    have hlines := readsLines_pairs pairs
    rw [behind_mapping, valueKinds, pairKinds]
    · exact hfirst.leads_laidOut hlines hbeside hk htail outer kinds
    · exact fun h => absurd h (List.cons_ne_nil _ _)

theorem readsLines_items : ∀ items,
    ReadsLines (fun column => sequenceLines column items) (itemKinds items)
  | [] => readsLines_nil
  | item :: items => (readsEntries_item (readsValue item)).readsLines (readsLines_items items)

theorem readsLines_pairs : ∀ pairs,
    ReadsLines (fun column => mappingLines column pairs) (pairKinds pairs)
  | [] => readsLines_nil
  | (key, value) :: pairs => by
    have hpair := readsEntries_pair key (readsValue value)
    have hlines := hpair.readsLines (readsLines_pairs pairs)
    simp only [← mappingLines_cons] at hlines
    exact hlines

end

/-! ## Printable characters -/

/-- A text of printable characters. -/
def Printable (cs : List Char) : Prop := ∀ c ∈ cs, isPrintable c = true

theorem printable_cons {c : Char} {cs : List Char} :
    Printable (c :: cs) ↔ isPrintable c = true ∧ Printable cs := List.forall_mem_cons

theorem printable_append {a b : List Char} : Printable (a ++ b) ↔ Printable a ∧ Printable b :=
  List.forall_mem_append

theorem printable_nil : Printable [] := fun _ h => absurd h List.not_mem_nil

theorem printable_spaces (n : Nat) : Printable (spaces n) := by
  intro c hc
  rw [List.eq_of_mem_replicate hc]
  decide

theorem printable_margin (broken : Bool) (margin : Nat) :
    Printable (if broken then spaces margin else []) := by
  cases broken with
  | true => exact printable_spaces margin
  | false => exact printable_nil

theorem printable_singleQuotedChars (margin : Nat) (broken : Bool) {cs : List Char}
    (h : Printable cs) : Printable (singleQuotedChars margin broken cs) := by
  induction cs generalizing broken with
  | nil => exact printable_margin broken margin
  | cons c cs ih =>
    obtain ⟨hc, hcs⟩ := printable_cons.1 h
    rw [singleQuotedChars]
    split
    · exact printable_cons.2 ⟨hc, ih true hcs⟩
    · refine printable_append.2 ⟨printable_append.2 ⟨printable_margin broken margin, ?_⟩, ih false hcs⟩
      split
      · exact printable_cons.2 ⟨by decide, printable_cons.2 ⟨by decide, printable_nil⟩⟩
      · exact printable_cons.2 ⟨hc, printable_nil⟩

theorem printable_literalChars (margin : Nat) (broken : Bool) {cs : List Char} (h : Printable cs) :
    Printable (literalChars margin broken cs) := by
  induction cs generalizing broken with
  | nil => exact printable_nil
  | cons c cs ih =>
    obtain ⟨hc, hcs⟩ := printable_cons.1 h
    rw [literalChars]
    split
    · exact printable_cons.2 ⟨hc, ih true hcs⟩
    · exact printable_append.2 ⟨printable_margin broken margin, printable_cons.2 ⟨hc, ih false hcs⟩⟩

theorem printable_headerChars (shown : Bool) (chomping : Chomping) :
    Printable (headerChars shown chomping) := by
  cases shown <;> cases chomping <;> exact List.all_eq_true.1 (by decide)

/-- A text in its form is printable, whatever it holds. -/
theorem printable_writtenAs {cs : List Char} {form : ScalarStyle} (h : Formed cs form)
    (margin : Nat) : Printable (writtenAs form margin cs) := by
  cases h with
  | plain hcs => exact hcs.printable
  | singleQuoted hcs =>
    have hallows := hcs.allows
    simp only [allowsSingleQuotes, Bool.and_eq_true, List.all_eq_true] at hallows
    have hchars := printable_singleQuotedChars margin false hallows.1.1
    exact printable_append.2 ⟨printable_cons.2 ⟨by decide, hchars⟩,
      printable_cons.2 ⟨by decide, printable_nil⟩⟩
  | doubleQuoted =>
    have hchars : Printable (cs.flatMap doubleQuotedChar) := by
      intro c hc
      obtain ⟨d, -, hc⟩ := List.mem_flatMap.1 hc
      exact (doubleQuotedChar_line d c hc).1
    exact printable_append.2 ⟨printable_cons.2 ⟨by decide, hchars⟩,
      printable_cons.2 ⟨by decide, printable_nil⟩⟩
  | literal hnewline hprintable =>
    obtain ⟨chomping, hhints, -⟩ := literalHints_eq (List.ne_nil_of_mem hnewline)
    have hhints' : Printable (literalHints cs) := hhints ▸ printable_headerChars _ chomping
    exact printable_append.2 ⟨printable_cons.2 ⟨by decide, hhints'⟩,
      printable_cons.2 ⟨by decide, printable_literalChars margin true hprintable⟩⟩

theorem printable_ended {cs : List Char} (h : Printable cs) : Printable (ended cs) := by
  unfold ended
  split
  · exact h
  · exact printable_append.2 ⟨h, printable_cons.2 ⟨by decide, printable_nil⟩⟩

theorem printable_laidOut (place : Placement) (indent : Nat) {lines : List (List Char)}
    (h : ∀ line ∈ lines, Printable line) : Printable (laidOut place indent lines) := by
  have hlines : ∀ rest : List (List Char), (∀ line ∈ rest, Printable line) →
      Printable (rest.flatMap (spaces indent ++ ·)) := by
    intro rest hrest c hc
    obtain ⟨line, hline, hc⟩ := List.mem_flatMap.1 hc
    exact printable_append.2 ⟨printable_spaces indent, hrest line hline⟩ c hc
  unfold laidOut
  split
  · obtain ⟨hfirst, hrest⟩ := List.forall_mem_cons.1 h
    exact printable_append.2 ⟨printable_cons.2 ⟨by decide, hfirst⟩, hlines _ hrest⟩
  · exact printable_cons.2 ⟨by decide, hlines _ h⟩

theorem printable_pairLine (key : String) {value : Outline}
    (h : ∀ place indent, Printable (behind place indent value)) (column : Nat) :
    Printable (pairLine key value column) := by
  have hkey := printable_writtenAs (formed key) (column + 2)
  unfold pairLine
  split
  · exact printable_append.2 ⟨hkey, printable_cons.2 ⟨by decide, h .below column⟩⟩
  · refine printable_append.2 ⟨printable_append.2 ⟨printable_cons.2 ⟨by decide, ?_⟩,
      printable_spaces column⟩, printable_cons.2 ⟨by decide, h .beside column⟩⟩
    exact printable_ended (printable_cons.2 ⟨by decide, hkey⟩)

mutual

theorem printable_behind : ∀ value place indent, Printable (behind place indent value)
  | text s, place, indent => by
    rw [behind]
    exact printable_ended (printable_cons.2 ⟨by decide, printable_writtenAs (formed s) (indent + 2)⟩)
  | sequence [], place, indent => by
    rw [behind]
    exact List.all_eq_true.1 (by decide)
  | sequence (item :: items), place, indent => by
    rw [behind]
    · exact printable_laidOut place _ (printable_sequenceLines (item :: items) _)
    · exact fun h => absurd h (List.cons_ne_nil _ _)
  | mapping [], place, indent => by
    rw [behind]
    exact List.all_eq_true.1 (by decide)
  | mapping (pair :: pairs), place, indent => by
    rw [behind]
    · exact printable_laidOut place _ (printable_mappingLines (pair :: pairs) _)
    · exact fun h => absurd h (List.cons_ne_nil _ _)

theorem printable_sequenceLines : ∀ items indent, ∀ line ∈ sequenceLines indent items, Printable line
  | [], indent => by
    rw [sequenceLines]
    exact fun _ h => absurd h List.not_mem_nil
  | item :: items, indent => by
    rw [sequenceLines]
    exact List.forall_mem_cons.2 ⟨printable_cons.2 ⟨by decide, printable_behind item .beside indent⟩,
      printable_sequenceLines items indent⟩

theorem printable_mappingLines : ∀ pairs indent, ∀ line ∈ mappingLines indent pairs, Printable line
  | [], indent => by
    rw [mappingLines]
    exact fun _ h => absurd h List.not_mem_nil
  | (key, value) :: pairs, indent => by
    rw [mappingLines_cons]
    exact List.forall_mem_cons.2 ⟨printable_pairLine key (printable_behind value) indent,
      printable_mappingLines pairs indent⟩

end

/-! ## Documents -/

/-- At the end of a text the outermost collection is closed. -/
theorem gives_end {kinds : List TokenKind} {st : TokenState} {m : Mark}
    (h : Point.Holds ⟨0, [-1], true, kinds, 0, []⟩ st m) :
    ∃ toks, st.Gives toks ∧ toks.toList.map Token.kind = kinds ++ [.blockEnd, .streamEnd] := by
  have hadvance : st.advance = .ok st := h.advance_self (fun c hc => by cases hc) (Int.le_refl 0)
  have hstop : st.stop = m := h.stop
  have hcolumn : m.column = 0 := h.column
  have hkinds : st.tokens.toList.map Token.kind = kinds := h.kinds
  have hkey := h.key
  have hclosing : closing (-1) 0 [-1] = (1, -1, []) := rfl
  have hfinish : st.finish =
      .ok ((st.tokens ++ Array.replicate 1 (⟨.blockEnd, m⟩ : Token)).push ⟨.streamEnd, m⟩) := by
    rw [finish, hstop, if_pos hcolumn, leave, h.closeBlocks_eq, hclosing]
    simp only [dropKey, hkey]
    rfl
  refine ⟨_, gives_of_finish hadvance h.rest hfinish, ?_⟩
  simp [hkinds]

/-- A printable text is read from its first point on. -/
theorem tokens_of_leads {cs : List Char} (hprintable : Printable cs) {kinds : List TokenKind}
    (h : Leads ⟨-1, [], true, [], 0, cs⟩ ⟨0, [-1], true, kinds, 0, []⟩) :
    ∃ toks, tokens cs = .ok toks ∧
      toks.toList.map Token.kind = kinds ++ [.blockEnd, .streamEnd] := by
  have hallowed : (placed .origin cs).find? (fun s => !isAllowed s.char) = none := by
    rw [List.find?_eq_none]
    intro s hs
    have hs' := isAllowed_of_printable (hprintable s.char (char_of_mem_placed hs))
    simp [hs']
  have hstart : Point.Holds ⟨-1, [], true, [], 0, cs⟩
      (TokenState.start (placed .origin cs) (Mark.origin.after cs)) .origin := by
    constructor <;> rfl
  obtain ⟨st, m, hend, hreaches⟩ := h _ _ hstart
  obtain ⟨toks, hgives, hkinds⟩ := gives_end hend
  refine ⟨toks, ?_, hkinds⟩
  rw [tokens, spotsFrom_eq_placed hprintable]
  simp only [hallowed]
  exact hreaches toks hgives _ (Nat.lt_succ_self _)

theorem tokens_document (key : String) (value : Outline) (pairs : List (String × Outline)) :
    ∃ toks, tokens (document ((key, value) :: pairs)).toList = .ok toks ∧
      toks.toList.map Token.kind = .blockMappingStart :: (pairKinds ((key, value) :: pairs) ++
        [.blockEnd, .streamEnd]) := by
  have hentries := (readsEntries_pair key (readsValue value)).append (readsLines_pairs pairs)
  have hend : StartsLine 0 [] := ⟨fun _ => rfl, fun c hc => by cases hc⟩
  have hleads := hentries.leads (.first (-1) [] [] (by decide : (-1 : Int) < (0 : Nat)))
    (Nat.le_refl 0) hend
  have htext : (document ((key, value) :: pairs)).toList =
      pairLine key value 0 ++ furtherLines 0 (mappingLines 0 pairs) ++ (spaces 0 ++ []) := by
    have hspaces : furtherLines 0 (mappingLines 0 pairs) = (mappingLines 0 pairs).flatten := by
      rw [furtherLines, ← List.flatMap_id]
      rfl
    rw [document, String.toList_ofList, mappingLines_cons, List.flatten_cons, hspaces]
    simp [spaces]
  have hprintable : Printable (document ((key, value) :: pairs)).toList := by
    rw [document, String.toList_ofList]
    intro c hc
    obtain ⟨line, hline, hc⟩ := List.mem_flatten.1 hc
    exact printable_mappingLines _ 0 line hline c hc
  rw [← htext] at hleads
  obtain ⟨toks, htoks, hkinds⟩ := tokens_of_leads hprintable hleads
  refine ⟨toks, htoks, hkinds.trans ?_⟩
  rw [pairKinds]
  simp

end ColumnAudit.Yaml.Outline
