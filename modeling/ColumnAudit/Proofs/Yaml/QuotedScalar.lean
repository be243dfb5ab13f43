import ColumnAudit.Proofs.Yaml.PlainScalar

/-! # Quoted scalars

Between single quotes only a quote is written otherwise than it is, and a line end of the text is folded
back to itself because none is a line feed and no space stands beside one (`quotedFrom_singleQuoted`).
Between double quotes each character that is not printed as it is has an escape that stands for it
(`quotedFrom_doubleQuoted`).
-/

namespace ColumnAudit.Yaml
set_option autoImplicit false

/-! ## Characters side by side -/

section Adjacent
variable {p q : Char → Bool}

theorem hasAdjacent_append_cons {a c : Char} (ha : p a = true) (hc : q c = true)
    (front cs : List Char) : hasAdjacent p q (front ++ a :: c :: cs) = true := by
  induction front with
  | nil => simp [hasAdjacent, ha, hc]
  | cons d front ih =>
    cases front with
    | nil => simp [hasAdjacent, ha, hc]
    | cons e front =>
      simp only [List.cons_append, hasAdjacent, Bool.or_eq_true]
      exact .inr ih

theorem hasAdjacent_of_append {a b : List Char} (h : hasAdjacent p q (a ++ b) = false) :
    hasAdjacent p q b = false := by
  induction a with
  | nil => exact h
  | cons c a ih =>
    refine ih ?_
    cases hrest : a ++ b with
    | nil => rfl
    | cons d rest =>
      rw [List.cons_append, hrest, hasAdjacent, Bool.or_eq_false_iff] at h
      exact h.2

end Adjacent

/-! ## Gaps between quotes -/

/-- The gap that a text is: spaces inside a line, or line ends. The latter have no line feed among
them, which would be folded. -/
inductive IsGapText : Bool → Option Gap → List Char → Prop
  | spaces (b : List Char) (h : ∀ c ∈ b, c = ' ') : IsGapText false (inlineGap b) b
  | breaks (first : Char) (others : List Char) (hfirst : first ≠ '\n')
      (h : ∀ c ∈ first :: others, isBreak c = true) :
      IsGapText true (some ⟨[], true, some first, others⟩) (first :: others)

theorem IsGapText.text_eq {broken : Bool} {gap : Option Gap} {text : List Char}
    (h : IsGapText broken gap text) : (gap.getD .none).text = text := by
  cases h with
  | spaces _ _ => exact text_inlineGap text
  | breaks first others hfirst _ => simp [Gap.text]

theorem IsGapText.nil : IsGapText false none [] :=
  .spaces [] fun _ h => absurd h List.not_mem_nil

/-- A line end goes to the line ends of a gap; spaces would have been lost. -/
theorem IsGapText.add_break {broken : Bool} {gap : Option Gap} {text : List Char}
    (h : IsGapText broken gap text) {c : Char} (hc : isBreak c = true) (hne : c ≠ '\n')
    {cs : List Char} (hspace : hasAdjacent isSpace isBreak (text ++ c :: cs) = false) :
    IsGapText true (some ((gap.getD .none).add c)) (text ++ [c]) := by
  cases h with
  | spaces _ h =>
    have htext : text = [] := by
      rcases List.eq_nil_or_concat text with htext | ⟨front, d, rfl⟩
      · exact htext
      · have hd : isSpace d = true := by rw [h d (by simp)]; rfl
        rw [List.concat_eq_append, List.append_assoc] at hspace
        exact absurd (hasAdjacent_append_cons hd hc front cs) (by simpa using hspace)
    have hadd : (⟨[], false, none, []⟩ : Gap).add c = ⟨[], true, some c, []⟩ := by
      simp [Gap.add, hc]
    rw [htext, getD_inlineGap, hadd]
    exact .breaks c [] hne (by simpa using hc)
  | breaks first others hfirst h =>
    have hadd : ((some (⟨[], true, some first, others⟩ : Gap)).getD .none).add c =
        ⟨[], true, some first, others ++ [c]⟩ := by simp [Gap.add, hc]
    rw [hadd]
    refine .breaks first (others ++ [c]) hfirst fun d hd => ?_
    rcases List.mem_append.1 (List.cons_append .. ▸ hd) with hd | hd
    · exact h d hd
    · rw [List.mem_singleton.1 hd]
      exact hc

/-- A space goes to the spaces of a gap; there is none behind a line end. -/
theorem IsGapText.add_space {broken : Bool} {gap : Option Gap} {text : List Char}
    (h : IsGapText broken gap text) {cs : List Char}
    (hbreak : hasAdjacent isBreak isSpace (text ++ ' ' :: cs) = false) :
    broken = false ∧ IsGapText false (some ((gap.getD .none).add ' ')) (text ++ [' ']) := by
  cases h with
  | spaces _ h =>
    rw [add_space_inlineGap]
    refine ⟨rfl, .spaces _ fun d hd => ?_⟩
    rcases List.mem_append.1 hd with hd | hd
    · exact h d hd
    · exact List.mem_singleton.1 hd
  | breaks first others hfirst h =>
    have hne : first :: others ≠ [] := List.cons_ne_nil _ _
    have hlast := h _ (List.getLast_mem hne)
    have hspaces : isSpace ' ' = true := by decide
    rw [← List.dropLast_concat_getLast hne, List.append_assoc] at hbreak
    exact absurd (hasAdjacent_append_cons hlast hspaces _ cs) (by simpa using hbreak)

section Quoted
variable {double : Bool} {start : Mark}

theorem quotedFrom_spaces (m : Mark) (first : Option Char) (others done : List Char) (k : Nat)
    (tail : List Char) :
    quotedFrom double start .text (some ⟨[], true, first, others⟩) done
        (placed m (spaces k ++ tail)) =
      quotedFrom double start .text (some ⟨[], true, first, others⟩) done
        (placed (m.after (spaces k)) tail) := by
  induction k generalizing m with
  | zero => rfl
  | succ k ih =>
    have hspaces : spaces (k + 1) = ' ' :: spaces k := rfl
    rw [hspaces, List.cons_append, placed, quotedFrom]
    simp only [isGap_space, Bool.true_or, if_true]
    exact ih _

theorem quotedFrom_gap {c : Char} (h : (isGap c || isBreak c) = true) (gap : Option Gap)
    (done : List Char) (m : Mark) (tail : List Char) :
    quotedFrom double start .text gap done (placed m (c :: tail)) =
      quotedFrom double start .text (some ((gap.getD .none).add c)) done
        (placed (m.behind c) tail) := by
  rw [placed, quotedFrom]
  simp only [h, if_true]

/-- What is neither a blank nor a line end ends the gap. -/
theorem quotedFrom_visible {c : Char} (h : (isGap c || isBreak c) = false) {m : Mark}
    (hcolumn : 0 < m.column) (gap : Option Gap) (done : List Char) (tail : List Char) :
    quotedFrom double start .text gap done (placed m (c :: tail)) =
      quotedFrom double start .text none ((gap.getD .none).text.reverse ++ done)
        (placed m (c :: tail)) := by
  have hmark := isDocumentMark_of_column hcolumn (c :: tail)
  rw [placed] at hmark ⊢
  rw [quotedFrom, quotedFrom]
  simp only [h, hmark, Bool.and_false, Bool.false_eq_true, if_false, Option.getD_none]
  rfl

end Quoted

/-! ## Single quotes -/

/-- A text that can stand between single quotes, without a line feed. -/
structure IsSingleQuoted (cs : List Char) : Prop where
  allows : allowsSingleQuotes cs = true
  no_newline : '\n' ∉ cs

section Single
variable {start : Mark} {tail : List Char} (htail : tail.head? ≠ some '\x27')
include htail

theorem quotedFrom_closing (done : List Char) (m : Mark) :
    quotedFrom false start .text none done (placed m ('\x27' :: tail)) =
      .ok (done.reverse, placed m.next tail) := by
  have hquote : (isGap '\x27' || isBreak '\x27') = false := by decide
  have hnext : m.behind '\x27' = m.next := Mark.behind_of_not_break (by decide)
  rw [placed, hnext, quotedFrom]
  simp only [hquote, Option.isSome_none, Bool.false_and, Bool.false_eq_true, if_false, if_true,
    Option.getD_none, Gap.text, Gap.none, List.reverse_nil, List.nil_append]
  cases tail with
  | nil => simp [placed, quotedFrom]
  | cons c tail =>
    have hc : ¬ c = '\x27' := fun h => htail (congrArg some h)
    rw [placed, quotedFrom]
    simp [hc]

omit htail in
/-- A character that is seen ends the gap in front of it, also where it is indented behind line ends. -/
theorem quotedFrom_indented {margin : Nat} (hmargin : 0 < margin) {broken : Bool}
    {gap : Option Gap} {text : List Char} (hgap : IsGapText broken gap text) {c : Char}
    (hc : (isGap c || isBreak c) = false) {m : Mark} (hcolumn : broken = false → 0 < m.column)
    (done rest : List Char) :
    let indented := if broken then spaces margin else []
    0 < (m.after indented).column ∧
      quotedFrom false start .text gap done (placed m (indented ++ c :: rest)) =
        quotedFrom false start .text none (text.reverse ++ done)
          (placed (m.after indented) (c :: rest)) := by
  have htext := hgap.text_eq
  cases hgap with
  | spaces _ h =>
    refine ⟨hcolumn rfl, ?_⟩
    refine (quotedFrom_visible hc (hcolumn rfl) _ done rest).trans ?_
    rw [htext]
    rfl
  | breaks first others hfirst h =>
    have hpos : 0 < (m.after (spaces margin)).column := by
      rw [Mark.after_spaces]
      exact Nat.lt_of_lt_of_le hmargin (Nat.le_add_left _ _)
    refine ⟨hpos, ?_⟩
    simp only [if_true]
    rw [quotedFrom_spaces, quotedFrom_visible hc hpos, htext]

/-- A character that is seen, as it is written between single quotes. -/
def singleQuotedChar (c : Char) : List Char := if c = '\x27' then ['\x27', '\x27'] else [c]

omit htail in
theorem quotedFrom_singleQuotedChar {c : Char} (hc : (isGap c || isBreak c) = false) (m : Mark)
    (done rest : List Char) :
    quotedFrom false start .text none done (placed m (singleQuotedChar c ++ rest)) =
      quotedFrom false start .text none (c :: done)
        (placed (m.after (singleQuotedChar c)) rest) := by
  unfold singleQuotedChar
  by_cases hquote : c = '\x27'
  · subst hquote
    simp only [if_true, List.cons_append, List.nil_append, placed, Mark.after_cons, Mark.after_nil]
    rw [quotedFrom]
    simp only [hc, Option.isSome_none, Bool.false_and, Bool.false_eq_true, if_false, if_true]
    rw [quotedFrom]
    rfl
  · simp only [if_neg hquote, List.cons_append, List.nil_append, placed, Mark.after_cons,
      Mark.after_nil]
    rw [quotedFrom]
    simp only [hc, hquote, Option.isSome_none, Bool.false_and, Bool.false_eq_true, if_false]
    rfl

omit htail in
theorem singleQuotedChar_eq_cons (c : Char) (rest : List Char) :
    ∃ behind, singleQuotedChar c ++ rest = c :: behind := by
  unfold singleQuotedChar
  split
  · rename_i hquote
    exact ⟨_, by rw [hquote]; rfl⟩
  · exact ⟨_, rfl⟩

omit htail in
theorem isBreak_singleQuotedChar {c : Char} (hc : isBreak c = false) :
    ∀ d ∈ singleQuotedChar c, isBreak d = false := by
  unfold singleQuotedChar
  intro d hd
  split at hd
  · simp only [List.mem_cons, List.not_mem_nil, or_false, or_self] at hd
    rw [hd]
    decide
  · rw [List.mem_singleton.1 hd]
    exact hc

omit htail in
theorem quotedFrom_visibleStep {margin : Nat} (hmargin : 0 < margin) {broken : Bool}
    {gap : Option Gap} {text : List Char} (hgap : IsGapText broken gap text) {c : Char}
    (hc : (isGap c || isBreak c) = false) {m : Mark} (hcolumn : broken = false → 0 < m.column)
    (done rest : List Char) :
    let written := (if broken then spaces margin else []) ++ singleQuotedChar c
    0 < (m.after written).column ∧
      quotedFrom false start .text gap done (placed m (written ++ rest)) =
        quotedFrom false start .text none (c :: (text.reverse ++ done))
          (placed (m.after written) rest) := by
  obtain ⟨behind, hbehind⟩ := singleQuotedChar_eq_cons c rest
  obtain ⟨hpos, hindented⟩ := quotedFrom_indented hmargin hgap hc hcolumn done behind
  have hline := isBreak_singleQuotedChar (Bool.or_eq_false_iff.1 hc).2
  simp only [Mark.after_append]
  constructor
  · rw [Mark.after_of_no_break hline]
    exact Nat.lt_of_lt_of_le hpos (Nat.le_add_right _ _)
  · rw [List.append_assoc, hbehind, hindented, ← hbehind, quotedFrom_singleQuotedChar hc]

theorem quotedFrom_singleQuotedChars {margin : Nat} (hmargin : 0 < margin) {cs : List Char}
    (hprintable : ∀ c ∈ cs, isPrintable c = true) (hnewline : '\n' ∉ cs) {broken : Bool}
    {gap : Option Gap} {text : List Char} (hgap : IsGapText broken gap text)
    (hspace : hasAdjacent isSpace isBreak (text ++ cs) = false)
    (hbreak : hasAdjacent isBreak isSpace (text ++ cs) = false) {m : Mark}
    (hcolumn : broken = false → 0 < m.column) (done : List Char) :
    quotedFrom false start .text gap done
        (placed m (singleQuotedChars margin broken cs ++ '\x27' :: tail)) =
      .ok (done.reverse ++ (text ++ cs),
        placed (m.after (singleQuotedChars margin broken cs ++ ['\x27'])) tail) := by
  induction cs generalizing broken gap text m done with
  | nil =>
    have hquote : (isGap '\x27' || isBreak '\x27') = false := by decide
    have hnext : ∀ m : Mark, m.behind '\x27' = m.next := fun m =>
      Mark.behind_of_not_break (by decide)
    rw [singleQuotedChars, (quotedFrom_indented hmargin hgap hquote hcolumn done tail).2,
      quotedFrom_closing htail, Mark.after_append, Mark.after_cons, hnext]
    simp [Mark.after_nil]
  | cons c cs ih =>
    have hc := hprintable c (List.mem_cons_self ..)
    have hrest := fun {broken : Bool} {gap : Option Gap} {text : List Char} =>
      @ih (fun d hd => hprintable d (List.mem_cons_of_mem _ hd))
        (fun h => hnewline (List.mem_cons_of_mem _ h)) broken gap text
    -- The gap grows by line ends, or by spaces, until a character is seen; by the two conditions on what
    -- stands side by side it never holds both.
    by_cases hcbreak : isBreak c = true
    · have hne : c ≠ '\n' := fun h => hnewline (h ▸ List.mem_cons_self ..)
      have hshape : singleQuotedChars margin broken (c :: cs) =
          c :: singleQuotedChars margin true cs := by rw [singleQuotedChars, if_pos hcbreak]
      rw [hshape, List.cons_append, quotedFrom_gap (by simp [hcbreak]),
        hrest (hgap.add_break hcbreak hne hspace) (by simpa using hspace) (by simpa using hbreak)
          fun h => absurd h (by decide)]
      simp [Mark.after_cons]
    have hnotBreak := Bool.eq_false_iff.2 hcbreak
    by_cases hcspace : c = ' '
    · subst hcspace
      obtain ⟨rfl, hgap'⟩ := hgap.add_space hbreak
      have hshape : singleQuotedChars margin false (' ' :: cs) =
          ' ' :: singleQuotedChars margin false cs := rfl
      rw [hshape, List.cons_append, quotedFrom_gap (by decide),
        hrest hgap' (by simpa using hspace) (by simpa using hbreak) fun _ => by
          rw [Mark.behind_of_not_break hnotBreak]
          exact Nat.succ_pos _]
      simp [Mark.after_cons]
    · have hvisible := visible_of_printable hc hcspace hnotBreak
      obtain ⟨hpos, hstep⟩ := quotedFrom_visibleStep hmargin hgap hvisible hcolumn done
        (singleQuotedChars margin false cs ++ '\x27' :: tail)
      have hshape : singleQuotedChars margin broken (c :: cs) =
          (if broken then spaces margin else []) ++ singleQuotedChar c ++
            singleQuotedChars margin false cs := by
        rw [singleQuotedChars, if_neg hcbreak]
        rfl
      rw [hshape, List.append_assoc, hstep, hrest .nil
        (hasAdjacent_of_append (a := text ++ [c]) (by simpa using hspace))
        (hasAdjacent_of_append (a := text ++ [c]) (by simpa using hbreak)) fun _ => hpos]
      simp [Mark.after_append]

theorem quotedFrom_singleQuoted {cs : List Char} (h : IsSingleQuoted cs) {margin : Nat}
    (hmargin : 0 < margin) {m : Mark} (hcolumn : 0 < m.column) :
    quotedFrom false start .text none []
        (placed m (singleQuotedChars margin false cs ++ '\x27' :: tail)) =
      .ok (cs, placed (m.after (singleQuotedChars margin false cs ++ ['\x27'])) tail) := by
  have hallows := h.allows
  simp only [allowsSingleQuotes, Bool.and_eq_true, List.all_eq_true, Bool.not_eq_true'] at hallows
  exact quotedFrom_singleQuotedChars htail hmargin hallows.1.1 h.no_newline .nil hallows.1.2
    hallows.2 (fun _ => hcolumn) []

end Single

/-! ## Double quotes -/

theorem isBreak_of_escapeLetter?_none {c : Char} (h : escapeLetter? c = none) : isBreak c = false := by
  have hne : ∀ d, escapeLetter? d ≠ none → c ≠ d := fun d hd heq => hd (heq ▸ h)
  simp [isBreak, hne '\n' (by decide), hne '\r' (by decide), hne '\u0085' (by decide),
    hne '\u2028' (by decide), hne '\u2029' (by decide)]

theorem escapeValue?_of_escapeLetter? {c letter : Char} (h : escapeLetter? c = some letter) :
    escapeValue? letter = some c ∧ isBreak letter = false := by
  unfold escapeLetter? at h
  split at h <;> cases h <;> decide

/-- The characters that are written by their number are few. -/
theorem toNat_of_not_printable {c : Char} (h : isPrintable c = false) :
    c.toNat < 256 ∨ c.toNat = 0xFEFF ∨ c.toNat = 0xFFFE ∨ c.toNat = 0xFFFF := by
  have hvalid : c.toNat < 0xD800 ∨ 0xDFFF < c.toNat ∧ c.toNat < 0x110000 := c.valid
  simp only [isPrintable, Bool.or_eq_false_iff, Bool.and_eq_false_iff, decide_eq_false_iff_not,
    beq_eq_false_iff_ne, bne_eq_false_iff_eq, ne_eq] at h
  omega

section Double
variable {start : Mark}

theorem quotedFrom_code {digits : List Char} (hne : digits ≠ []) {v n : Nat}
    (h : digitsBehind 16 v digits = some n) (hvalid : n.isValidChar) (done : List Char) (m : Mark)
    (rest : List Char) :
    quotedFrom true start (.code digits.length v) none done (placed m (digits ++ rest)) =
      quotedFrom true start .text none (Char.ofNat n :: done) (placed (m.after digits) rest) := by
  induction digits generalizing v m with
  | nil => exact absurd rfl hne
  | cons c digits ih =>
    rw [digitsBehind] at h
    rw [List.cons_append, placed, quotedFrom]
    cases hc : hexValue? c with
    | none =>
      rw [hc] at h
      cases h
    | some d =>
      simp only [hc] at h ⊢
      split at h
      · cases digits with
        | nil =>
          obtain rfl := Option.some.inj h
          simp only [List.length_cons, List.length_nil, Nat.zero_add, gt_iff_lt, Nat.lt_irrefl,
            if_false, if_pos hvalid, List.nil_append]
          rfl
        | cons e digits =>
          have hmore : (c :: e :: digits).length > 1 := by simp
          rw [if_pos hmore]
          exact ih (List.cons_ne_nil _ _) h _
      · cases h

theorem digitsBehind_two : ∀ n < 256, digitsBehind 16 0 (hexDigits 2 n) = some n ∧
    (hexDigits 2 n).length = 2 := by
  decide +kernel

theorem digitsBehind_four : ∀ n ∈ [0xFEFF, 0xFFFE, 0xFFFF],
    digitsBehind 16 0 (hexDigits 4 n) = some n ∧ (hexDigits 4 n).length = 4 := by
  decide +kernel

theorem doubleQuotedChar_code {c : Char} (hletter : escapeLetter? c = none)
    (hprintable : isPrintable c = false) :
    ∃ letter digits, doubleQuotedChar c = '\\' :: letter :: digits ∧ escapeValue? letter = none ∧
      codeLength? letter = some digits.length ∧ digits.length ≤ 4 ∧ isBreak letter = false ∧
      digits ≠ [] ∧ digitsBehind 16 0 digits = some c.toNat := by
  rw [doubleQuotedChar, hletter]
  simp only [hprintable, Bool.false_eq_true, if_false]
  by_cases hsmall : c.toNat ≤ 0xFF
  · obtain ⟨hvalue, hlength⟩ := digitsBehind_two c.toNat (by omega)
    have hne : hexDigits 2 c.toNat ≠ [] := fun h => by
      rw [h] at hlength
      cases hlength
    rw [if_pos hsmall]
    exact ⟨'x', _, rfl, rfl, by rw [hlength]; rfl, by omega, rfl, hne, hvalue⟩
  · have hrest : c.toNat ∈ [0xFEFF, 0xFFFE, 0xFFFF] := by
      have hcases := toNat_of_not_printable hprintable
      simp only [List.mem_cons, List.not_mem_nil, or_false]
      omega
    obtain ⟨hvalue, hlength⟩ := digitsBehind_four c.toNat hrest
    have hlarge : c.toNat ≤ 0xFFFF := by
      simp only [List.mem_cons, List.not_mem_nil, or_false] at hrest
      omega
    have hne : hexDigits 4 c.toNat ≠ [] := fun h => by
      rw [h] at hlength
      cases hlength
    rw [if_neg hsmall, if_pos hlarge]
    exact ⟨'u', _, rfl, rfl, by rw [hlength]; rfl, by omega, rfl, hne, hvalue⟩

theorem quotedFrom_backslash {m : Mark} (hcolumn : 0 < m.column) (b done rest : List Char) :
    quotedFrom true start .text (inlineGap b) done (placed m ('\\' :: rest)) =
      quotedFrom true start .escape none (b.reverse ++ done) (placed m.next rest) := by
  have hvisible : (isGap '\\' || isBreak '\\') = false := by decide
  have hnext : m.behind '\\' = m.next := Mark.behind_of_not_break (by decide)
  refine (quotedFrom_visible hvisible hcolumn _ done rest).trans ?_
  rw [text_inlineGap, placed, hnext, quotedFrom]
  simp [hvisible, Gap.text, Gap.none]

theorem quotedFrom_doubleQuotedChar {c : Char} (hc : c ≠ ' ') {m : Mark} (hcolumn : 0 < m.column)
    (b done rest : List Char) :
    quotedFrom true start .text (inlineGap b) done (placed m (doubleQuotedChar c ++ rest)) =
      quotedFrom true start .text none (c :: (b.reverse ++ done))
        (placed (m.after (doubleQuotedChar c)) rest) := by
  have hback : m.behind '\\' = m.next := Mark.behind_of_not_break (by decide)
  cases hletter : escapeLetter? c with
  | some letter =>
    obtain ⟨hvalue, hbreak⟩ := escapeValue?_of_escapeLetter? hletter
    have hwritten : doubleQuotedChar c = ['\\', letter] := by rw [doubleQuotedChar, hletter]
    rw [hwritten, List.cons_append, quotedFrom_backslash hcolumn, List.cons_append, List.nil_append,
      placed, quotedFrom]
    simp only [hbreak, hvalue, Bool.false_eq_true, if_false, Mark.after_cons, Mark.after_nil, hback]
  | none =>
    have hbreak := isBreak_of_escapeLetter?_none hletter
    by_cases hprintable : isPrintable c = true
    · have hwritten : doubleQuotedChar c = [c] := by
        rw [doubleQuotedChar, hletter]
        simp only [hprintable, if_true]
      have hvisible := visible_of_printable hprintable hc hbreak
      have hquote : c ≠ '\"' := by
        rintro rfl
        exact absurd hletter (by decide)
      have hslash : c ≠ '\\' := by
        rintro rfl
        exact absurd hletter (by decide)
      rw [hwritten, List.cons_append, List.nil_append]
      refine (quotedFrom_visible hvisible hcolumn _ done rest).trans ?_
      rw [text_inlineGap, placed, quotedFrom]
      simp [hvisible, hquote, hslash, Gap.text, Gap.none, Mark.after_cons, Mark.after_nil]
    · obtain ⟨letter, digits, hwritten, hvalue, hlength, -, hletterBreak, hne, hdigits⟩ :=
        doubleQuotedChar_code hletter (Bool.eq_false_iff.2 hprintable)
      have hvalid : c.toNat.isValidChar := c.valid
      rw [hwritten, List.cons_append, quotedFrom_backslash hcolumn, List.cons_append, placed,
        quotedFrom]
      simp only [hletterBreak, hvalue, hlength, Bool.false_eq_true, if_false]
      rw [quotedFrom_code hne hdigits hvalid, Char.ofNat_toNat, Mark.after_cons, Mark.after_cons,
        hback]

end Double

theorem printable_of_ascii {c : Char} (h : 0x20 ≤ c.toNat ∧ c.toNat ≤ 0x7E) :
    isPrintable c = true ∧ isBreak c = false := by
  have hne : ∀ d : Char, (d.toNat < 0x20 ∨ 0x7E < d.toNat) → c ≠ d := by
    rintro d hd rfl
    omega
  constructor
  · simp only [isPrintable, Bool.or_eq_true, Bool.and_eq_true, decide_eq_true_eq, beq_iff_eq]
    omega
  · simp [isBreak, hne '\n' (by decide), hne '\r' (by decide), hne '\u0085' (by decide),
      hne '\u2028' (by decide), hne '\u2029' (by decide)]

theorem ascii_of_hexValue? {c : Char} {d : Nat} (h : hexValue? c = some d) :
    0x20 ≤ c.toNat ∧ c.toNat ≤ 0x7E := by
  unfold hexValue? at h
  split at h
  · rename_i hdigit
    simp only [Char.isDigit, Bool.and_eq_true, decide_eq_true_eq] at hdigit
    have hlow : 48 ≤ c.toNat := hdigit.1
    have hhigh : c.toNat ≤ 57 := hdigit.2
    omega
  · split at h
    · rename_i hletter
      have hlow : 97 ≤ c.toNat := hletter.1
      have hhigh : c.toNat ≤ 102 := hletter.2
      omega
    · split at h
      · rename_i hletter
        have hlow : 65 ≤ c.toNat := hletter.1
        have hhigh : c.toNat ≤ 70 := hletter.2
        omega
      · cases h

theorem ascii_of_digitsBehind {cs : List Char} {v n : Nat} (h : digitsBehind 16 v cs = some n) :
    ∀ c ∈ cs, 0x20 ≤ c.toNat ∧ c.toNat ≤ 0x7E := by
  induction cs generalizing v with
  | nil => exact fun c hc => absurd hc List.not_mem_nil
  | cons c cs ih =>
    rw [digitsBehind] at h
    split at h
    · rename_i d hd
      split at h
      · intro e he
        rcases List.mem_cons.1 he with rfl | he
        · exact ascii_of_hexValue? hd
        · exact ih h e he
      · cases h
    · cases h

theorem ascii_of_escapeLetter? {c letter : Char} (h : escapeLetter? c = some letter) :
    0x20 ≤ letter.toNat ∧ letter.toNat ≤ 0x7E := by
  unfold escapeLetter? at h
  split at h <;> cases h <;> decide

theorem doubleQuotedChar_line (c : Char) :
    ∀ d ∈ doubleQuotedChar c, isPrintable d = true ∧ isBreak d = false := by
  intro d hd
  have hslash : 0x20 ≤ '\\'.toNat ∧ '\\'.toNat ≤ 0x7E := by decide
  cases hletter : escapeLetter? c with
  | some letter =>
    rw [doubleQuotedChar, hletter] at hd
    rcases List.mem_cons.1 hd with rfl | hd
    · exact printable_of_ascii hslash
    · rw [List.mem_singleton.1 hd]
      exact printable_of_ascii (ascii_of_escapeLetter? hletter)
  | none =>
    by_cases hprintable : isPrintable c = true
    · rw [doubleQuotedChar, hletter] at hd
      simp only [hprintable, if_true, List.mem_singleton] at hd
      rw [hd]
      exact ⟨hprintable, isBreak_of_escapeLetter?_none hletter⟩
    · obtain ⟨letter, digits, hwritten, hvalue, hlength, -, -, -, hdigits⟩ :=
        doubleQuotedChar_code hletter (Bool.eq_false_iff.2 hprintable)
      have hletters : 0x20 ≤ letter.toNat ∧ letter.toNat ≤ 0x7E := by
        unfold codeLength? at hlength
        split at hlength <;> first | decide | cases hlength
      rw [hwritten] at hd
      rcases List.mem_cons.1 hd with rfl | hd
      · exact printable_of_ascii hslash
      · rcases List.mem_cons.1 hd with rfl | hd
        · exact printable_of_ascii hletters
        · exact printable_of_ascii (ascii_of_digitsBehind hdigits d hd)

theorem length_doubleQuotedChar_le (c : Char) : (doubleQuotedChar c).length ≤ 6 := by
  cases hletter : escapeLetter? c with
  | some letter => simp [doubleQuotedChar, hletter]
  | none =>
    by_cases hprintable : isPrintable c = true
    · simp [doubleQuotedChar, hletter, hprintable]
    · obtain ⟨letter, digits, hwritten, -, -, hlength, -⟩ :=
        doubleQuotedChar_code hletter (Bool.eq_false_iff.2 hprintable)
      rw [hwritten, List.length_cons, List.length_cons]
      omega

theorem quotedFrom_doubleQuoted {start : Mark} (cs : List Char) {b : List Char} {m : Mark}
    (hcolumn : 0 < m.column) (done tail : List Char) :
    quotedFrom true start .text (inlineGap b) done
        (placed m (cs.flatMap doubleQuotedChar ++ '\"' :: tail)) =
      .ok (done.reverse ++ (b ++ cs),
        placed (m.after (cs.flatMap doubleQuotedChar ++ ['\"'])) tail) := by
  induction cs generalizing b m done with
  | nil =>
    have hvisible : (isGap '\"' || isBreak '\"') = false := by decide
    have hnext : m.behind '\"' = m.next := Mark.behind_of_not_break (by decide)
    rw [List.flatMap_nil, List.nil_append]
    refine (quotedFrom_visible hvisible hcolumn _ done tail).trans ?_
    rw [text_inlineGap, placed, quotedFrom]
    simp [hvisible, Gap.text, Gap.none, Mark.after_cons, Mark.after_nil]
  | cons c cs ih =>
    have hline : ∀ d ∈ doubleQuotedChar c, isBreak d = false := fun d hd =>
      (doubleQuotedChar_line c d hd).2
    have hcolumn' : 0 < (m.after (doubleQuotedChar c)).column := by
      rw [Mark.after_of_no_break hline]
      exact Nat.lt_of_lt_of_le hcolumn (Nat.le_add_right _ _)
    rw [List.flatMap_cons, List.append_assoc, List.append_assoc]
    by_cases hc : c = ' '
    · have hwritten : doubleQuotedChar ' ' = [' '] := by decide
      subst hc
      rw [hwritten] at hcolumn' ⊢
      rw [List.cons_append, List.nil_append, quotedFrom_gap (by decide), add_space_inlineGap]
      rw [Mark.after_cons, Mark.after_nil] at hcolumn'
      rw [ih hcolumn', List.cons_append, List.nil_append, Mark.after_cons]
      simp
    · rw [quotedFrom_doubleQuotedChar hc hcolumn]
      refine (ih (b := []) hcolumn' _).trans ?_
      simp [Mark.after_append]

end ColumnAudit.Yaml
