import ColumnAudit.Proofs.Yaml.ScalarToken

/-! # Keys as tokens

A key that stands on the line of its value is a scalar first, and turns out to be a key when the colon comes:
then the token for the key, and the one for the mapping that it opens, are put in front of the scalar
(`leads_key`). The reader remembers a possible key for 1024 characters of one line, and a key on the line of
its value is short enough for that in whichever form it is written (`Formed.length_le`).
-/

namespace ColumnAudit.Yaml
open TokenState
set_option autoImplicit false

/-! ## Lengths of keys -/

section Keys
variable {cs : List Char}

theorem singleQuotedChars_line {margin : Nat} (h : ∀ c ∈ cs, isBreak c = false) :
    singleQuotedChars margin false cs = cs.flatMap singleQuotedChar := by
  induction cs with
  | nil => rfl
  | cons c cs ih =>
    have hc := h c (List.mem_cons_self ..)
    rw [singleQuotedChars, List.flatMap_cons, ih fun d hd => h d (List.mem_cons_of_mem _ hd)]
    simp [hc, singleQuotedChar]

theorem Formed.one_line {form : ScalarStyle} (hformed : Formed cs form)
    (h : ∀ c ∈ cs, isBreak c = false) (margin : Nat) :
    ∀ c ∈ writtenAs form margin cs, isBreak c = false := by
  have hquote : isBreak '\x27' = false := by decide
  have hdouble : isBreak '\"' = false := by decide
  intro c hc
  cases hformed with
  | plain => exact h c hc
  | singleQuoted =>
    rw [writtenAs, singleQuotedChars_line h] at hc
    simp only [List.cons_append, List.mem_cons, List.mem_append, List.mem_flatMap,
      List.not_mem_nil, or_false] at hc
    rcases hc with rfl | ⟨d, hd, hc⟩ | rfl
    · exact hquote
    · exact isBreak_singleQuotedChar (h d hd) c hc
    · exact hquote
  | doubleQuoted =>
    rw [writtenAs] at hc
    simp only [List.cons_append, List.mem_cons, List.mem_append, List.mem_flatMap,
      List.not_mem_nil, or_false] at hc
    rcases hc with rfl | ⟨d, -, hc⟩ | rfl
    · exact hdouble
    · exact (doubleQuotedChar_line d c hc).2
    · exact hdouble
  | literal hnewline => exact absurd (h '\n' hnewline) (by decide)

theorem length_flatMap_le {f : Char → List Char} {n : Nat} (h : ∀ c, (f c).length ≤ n)
    (cs : List Char) : (cs.flatMap f).length ≤ n * cs.length := by
  induction cs with
  | nil => exact Nat.zero_le _
  | cons c cs ih =>
    have hc := h c
    rw [List.flatMap_cons, List.length_append, List.length_cons, Nat.mul_add, Nat.mul_one]
    omega

/-- A form without line ends has at most six characters for each one of the text. -/
theorem Formed.length_le {form : ScalarStyle} (hformed : Formed cs form)
    (h : ∀ c ∈ cs, isBreak c = false) (margin : Nat) :
    (writtenAs form margin cs).length ≤ 6 * cs.length + 2 := by
  have hsingle : ∀ c, (singleQuotedChar c).length ≤ 6 := by
    intro c
    unfold singleQuotedChar
    split <;> simp
  cases hformed with
  | plain =>
    rw [writtenAs]
    omega
  | singleQuoted =>
    have hlength := length_flatMap_le hsingle cs
    rw [writtenAs, singleQuotedChars_line h]
    simp only [List.cons_append, List.length_cons, List.length_append, List.length_nil]
    omega
  | doubleQuoted =>
    have hlength := length_flatMap_le length_doubleQuotedChar_le cs
    rw [writtenAs]
    simp only [List.cons_append, List.length_cons, List.length_append, List.length_nil]
    omega
  | literal hnewline => exact absurd (h '\n' hnewline) (by decide)

theorem length_le_utf8ByteSize (cs : List Char) : cs.length ≤ (String.ofList cs).utf8ByteSize := by
  induction cs with
  | nil => exact Nat.zero_le _
  | cons c cs ih =>
    have hc := c.utf8Size_pos
    rw [String.ofList_cons, String.utf8ByteSize_append, String.utf8ByteSize_singleton,
      List.length_cons]
    omega

theorem length_of_isSimpleKey {s : String} (h : Outline.isSimpleKey s = true) :
    (∀ c ∈ s.toList, isBreak c = false) ∧ s.toList.length ≤ 128 := by
  simp only [Outline.isSimpleKey, Bool.and_eq_true, Bool.not_eq_true', List.any_eq_false,
    Bool.not_eq_true, decide_eq_true_eq] at h
  have hlength := length_le_utf8ByteSize s.toList
  rw [String.ofList_toList] at hlength
  exact ⟨h.1, Nat.le_trans hlength h.2⟩

end Keys

/-! ## The key and its colon -/

section KeyToken
variable {indent : Int} {outer outer' : List Int} {kinds kinds' : List TokenKind} {column : Nat}
  {text : List Char} {st : TokenState} {m : Mark}

theorem Point.Holds.reads_key {cs : List Char} {form : ScalarStyle} (hformed : Formed cs form)
    (hline : ∀ c ∈ cs, isBreak c = false) {margin : Nat} (hmargin : 0 < margin)
    (hcolumn : indent ≤ column) (htext : endsWord text.head? = true) {allowed : Bool}
    (h : Point.Holds ⟨indent, outer, allowed, kinds, column,
      writtenAs form margin cs ++ ':' :: text⟩ st m) :
    st.Reads (st.behindScalar m (.scalar (String.ofList cs) form) false
      (placed (m.after (writtenAs form margin cs)) (':' :: text))) := by
  have hnext : (':' :: text).head? ≠ some '\x27' := by
    intro heq
    exact absurd (Option.some.inj heq) (by decide)
  cases hformed with
  | plain hcs => exact h.reads_plain_key hcs hcolumn rfl htext
  | singleQuoted hcs => exact h.reads_quoted (.singleQuoted hcs) (.inl rfl) hmargin rfl hnext
  | doubleQuoted => exact h.reads_quoted .doubleQuoted (.inr rfl) hmargin rfl hnext
  | literal hnewline => exact absurd (hline '\n' hnewline) (by decide)

/-- In front of the colon behind a key, the key is still remembered. -/
theorem Point.Holds.advance_behindScalar {front : List Char} {allowed : Bool}
    (h : Point.Holds ⟨indent, outer, allowed, kinds, column, front ++ ':' :: text⟩ st m)
    (hline : ∀ c ∈ front, isBreak c = false) (hlength : front.length ≤ 1024)
    (hcolumn : indent ≤ column) (kind : TokenKind) :
    (st.behindScalar m kind false (placed (m.after front) (':' :: text))).advance =
      .ok (st.behindScalar m kind false (placed (m.after front) (':' :: text))) := by
  have hafter := Mark.after_of_no_break (m := m) hline
  refine advance_of_token rfl rfl (StartsToken.head (by constructor <;> decide) text)
    (fun key hkey => ?_) ?_
  · have hmark : key.mark = m := by
      change key ∈ st.keyHere m at hkey
      rw [keyHere] at hkey
      split at hkey
      · exact (Option.some.inj hkey) ▸ rfl
      · cases hkey
    rw [hmark, hafter]
    exact ⟨Nat.le_refl _, Nat.add_le_add_left hlength _⟩
  · have hindent : st.indent = indent := h.indent
    have hm : m.column = column := h.column
    rw [hafter]
    simp only [behindScalar, hindent, hm]
    omega

theorem toList_insertIdxIfInBounds {a b : Array Token} {toks : List Token}
    (h : a.toList = b.toList ++ toks) (tok : Token) :
    (a.insertIdxIfInBounds b.size tok).toList = b.toList ++ tok :: toks := by
  have hinsert : ∀ l : List Token, (l ++ toks).insertIdx l.length tok = l ++ tok :: toks := by
    intro l
    induction l with
    | nil => rfl
    | cons t l ih => rw [List.cons_append, List.length_cons, List.insertIdx_succ_cons, ih]; rfl
  have hsize : b.size ≤ a.size := by
    rw [← Array.length_toList, ← Array.length_toList, h, List.length_append]
    omega
  rw [Array.insertIdxIfInBounds, dif_pos hsize, Array.toList_insertIdx, h, ← Array.length_toList,
    hinsert]

/-- The state in which a token has turned out to be a key. -/
def TokenState.behindKey (st : TokenState) (m : Mark) (kind : TokenKind) (rest : List Spot) :
    TokenState :=
  { st with
    rest := rest
    tokens := (st.tokens.push ⟨kind, m⟩).insertIdxIfInBounds st.tokens.size ⟨.key, m⟩
    key := none
    keyAllowed := false }

theorem Opens.behindKey (hopens : Opens .blockMappingStart column indent outer kinds outer' kinds')
    {allowed : Bool} (h : Point.Holds ⟨indent, outer, allowed, kinds, column, text⟩ st m)
    (kind : TokenKind) (rest : List Spot) :
    let opened := (st.behindKey m kind rest).openBlock .blockMappingStart st.tokens.size m
    opened.indent = column ∧ opened.outerIndents = outer' ∧ opened.rest = rest ∧
      opened.stop = st.stop ∧ opened.key = none ∧ opened.outerKeys = [] ∧
      opened.keyAllowed = false ∧ opened.tokens.toList.map Token.kind = kinds' ++ [.key, kind] := by
  have hflow : ¬ (st.behindKey m kind rest).inFlow = true := by
    rw [show (st.behindKey m kind rest).inFlow = _ from h.not_inFlow]
    decide
  have hcolumn : (m.column : Int) = column := congrArg _ h.column
  have hindent : (st.behindKey m kind rest).indent = indent := h.indent
  have houter : (st.behindKey m kind rest).outerIndents = outer := h.outer
  have hkinds : st.tokens.toList.map Token.kind = kinds := h.kinds
  have hkey : (st.behindKey m kind rest).tokens.toList =
      st.tokens.toList ++ [⟨.key, m⟩, ⟨kind, m⟩] :=
    toList_insertIdxIfInBounds (by simp) _
  cases hopens with
  | first _ _ _ hlt =>
    have hopen : ¬ ((st.behindKey m kind rest).inFlow = true ∨
        (m.column : Int) ≤ (st.behindKey m kind rest).indent) := by
      rw [hcolumn, hindent]
      exact not_or.2 ⟨hflow, Int.not_le.2 hlt⟩
    rw [openBlock, if_neg hopen]
    refine ⟨hcolumn, congr (congrArg List.cons hindent) houter, rfl, rfl, rfl, h.flow, rfl, ?_⟩
    rw [toList_insertIdxIfInBounds hkey]
    simp [hkinds]
  | further =>
    have hopen : (st.behindKey m kind rest).inFlow = true ∨
        (m.column : Int) ≤ (st.behindKey m kind rest).indent := by
      rw [hcolumn, hindent]
      exact .inr (Int.le_refl _)
    rw [openBlock, if_pos hopen]
    refine ⟨hindent, houter, rfl, rfl, rfl, h.flow, rfl, ?_⟩
    rw [hkey]
    simp [hkinds]

theorem readToken_colon (hallowed : st.keyAllowed = true) (hends : endsWord text.head? = true)
    (kind : TokenKind) (rest : List Spot) (m' : Mark) :
    (st.behindScalar m kind false rest).readToken ⟨':', m'⟩ (placed m'.next text) =
      .ok (((st.behindKey m kind rest).openBlock .blockMappingStart st.tokens.size m).add .value m'
        (placed m'.next text)) := by
  have hreader : (st.behindScalar m kind false rest).readToken ⟨':', m'⟩ (placed m'.next text) =
      (st.behindScalar m kind false rest).readValue ⟨':', m'⟩ (placed m'.next text) := by
    simp [readToken, isTripled_of_ne, nextChar_placed, hends]
  have hkey : (st.behindScalar m kind false rest).key =
      some ⟨st.indent == m.column, st.tokens.size, m⟩ := by
    simp [behindScalar, keyHere, hallowed]
  rw [hreader, readValue, hkey]
  rfl

theorem leads_key (s : String) (hsimple : Outline.isSimpleKey s = true)
    (hopens : Opens .blockMappingStart column indent outer kinds outer' kinds') {margin : Nat}
    (hmargin : 0 < margin) (htext : endsWord text.head? = true) :
    Leads ⟨indent, outer, true, kinds, column, written margin s ++ ':' :: text⟩
      ⟨column, outer', false, kinds' ++ [.key, .scalar s (formOf s), .value],
        column + (written margin s).length + 1, text⟩ := by
  intro st m h
  obtain ⟨hline, hlength⟩ := length_of_isSimpleKey hsimple
  have hformed := formed s
  have hwrittenLine : ∀ c ∈ written margin s, isBreak c = false := hformed.one_line hline margin
  have hwrittenLength : (written margin s).length ≤ 1024 :=
    Nat.le_trans (hformed.length_le hline margin) (by omega)
  have hafter := Mark.after_of_no_break (m := m) hwrittenLine
  have hcolon : (m.after (written margin s)).behind ':' = (m.after (written margin s)).next :=
    Mark.behind_of_not_break (by decide)
  obtain ⟨c, front, hfront, hc⟩ := hformed.starts margin
  -- The scalar, which may be a key.
  have hread := h.reads_key hformed hline hmargin hopens.indent_le htext
  rw [String.ofList_toList] at hread
  have hscalar := h.reaches hread (by
    rw [written, hfront]
    exact hc.head _) hopens.indent_le (by
    simp only [behindScalar, length_placed, written, hfront, List.length_append, List.length_cons]
    omega)
  -- The colon, with which it is one.
  have hadvance := h.advance_behindScalar hwrittenLine hwrittenLength hopens.indent_le
    (.scalar s (formOf s))
  have htoken := readToken_colon (m := m) h.allowed htext (.scalar s (formOf s))
    (placed (m.after (written margin s)) (':' :: text)) (m.after (written margin s))
  have hvalue := reaches_of_token hadvance (by rw [← hcolon]; rfl) htoken (by
    simp [TokenState.add, behindScalar, length_placed])
  obtain ⟨hindent, houter, -, hstop, hkey, hflow, hallowed, hkinds⟩ :=
    hopens.behindKey h (.scalar s (formOf s)) (placed (m.after (written margin s)) (':' :: text))
  refine ⟨_, (m.after (written margin s)).next, ?_, hscalar.trans hvalue⟩
  exact {
    column := by
      have hcolumn : m.column = column := h.column
      rw [hafter, ← hcolumn]
      rfl
    rest := rfl
    stop := by
      rw [← hcolon]
      exact hstop.trans (h.stop.trans (Mark.after_append ..))
    indent := hindent
    outer := houter
    key := hkey
    flow := hflow
    allowed := hallowed
    kinds := by
      simp only [TokenState.add, Array.toList_push, List.map_append, hkinds]
      simp }

end KeyToken

end ColumnAudit.Yaml
