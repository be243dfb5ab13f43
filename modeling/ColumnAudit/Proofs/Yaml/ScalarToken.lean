import ColumnAudit.Proofs.Yaml.Point
import ColumnAudit.Yaml.Outline

/-! # Scalars as tokens

A text that is written in its form is one token, which holds that text. As a value it is passed together with
the line end behind it (`leads_scalar`): some forms end there, others hold it. The two brackets of an empty
collection are passed in the same way (`leads_brackets`).
-/

namespace ColumnAudit.Yaml
open TokenState
set_option autoImplicit false

/-! ## Forms -/

/-- What is known of a text that is written in a form. -/
inductive Formed (cs : List Char) : ScalarStyle → Prop
  | plain (h : IsPlain cs) : Formed cs .plain
  | singleQuoted (h : IsSingleQuoted cs) : Formed cs .singleQuoted
  | doubleQuoted : Formed cs .doubleQuoted
  | literal (hnewline : '\n' ∈ cs) (hprintable : ∀ c ∈ cs, isPrintable c = true) :
    Formed cs .literal

theorem formed (s : String) : Formed s.toList (formOf s) := by
  unfold formOf
  by_cases hnewline : s.toList.contains '\n' = true
  · simp only [hnewline, if_true]
    split
    · rename_i hallows
      simp only [allowsLiteral, Bool.and_eq_true, List.all_eq_true] at hallows
      exact .literal (List.contains_iff_mem.1 hnewline) hallows.1.1
    · exact .doubleQuoted
  simp only [hnewline, Bool.false_eq_true, if_false]
  split
  · rename_i hplain
    simp only [Bool.and_eq_true, readsAsText, beq_iff_eq] at hplain
    refine .plain ⟨fun hnil => ?_, hplain.2⟩
    have hunit : resolve "" = .unit := rfl
    rw [String.toList_eq_nil_iff.1 hnil, hunit] at hplain
    cases hplain.1.1
  · split
    · rename_i hallows
      exact .singleQuoted ⟨hallows, fun h => hnewline (List.contains_iff_mem.2 h)⟩
    · exact .doubleQuoted

/-- The characters that a plain scalar may start with. -/
theorem IsPlain.front {c : Char} {cs : List Char} (h : IsPlain (c :: cs)) :
    (c = '-' ∨ c = '?' ∨ c = ':') ∧ endsWord cs.head? = false ∨ isIndicator c = false := by
  have hmarks := h.no_marks
  have hall := h.allows
  simp only [hasMark, Bool.or_eq_false_iff, Bool.and_eq_false_imp, beq_iff_eq] at hmarks
  simp only [allowsPlain, Bool.and_eq_true, Bool.not_eq_true', looksStructural,
    Bool.or_eq_false_iff] at hall
  have hfront := hall.2.2
  split at hfront
  · rename_i hc
    simp only [Bool.or_eq_true, beq_iff_eq] at hc
    exact .inl ⟨hc.imp_right .inl, hfront⟩
  · simp only [Bool.and_eq_false_imp, bne_eq_false_iff_eq] at hfront
    cases hc : isIndicator c with
    | false => exact .inr rfl
    | true => exact .inl ⟨.inr (.inr (hfront hc)), hmarks.1.1 (hfront hc)⟩

theorem IsPlain.starts {c : Char} {cs : List Char} (h : IsPlain (c :: cs)) : StartsToken c where
  printable := h.printable c (List.mem_cons_self ..)
  not_space := by
    have hall := h.allows
    simp only [allowsPlain, Bool.and_eq_true, Bool.not_eq_true', hasBlankEdge,
      Bool.or_eq_false_iff] at hall
    rintro rfl
    have hedge : (isSpace ' ' || isBreak ' ') = false := hall.1.2.1
    exact absurd hedge (by decide)
  not_break := h.one_line c (List.mem_cons_self ..)
  not_comment := by
    rintro rfl
    rcases h.front with ⟨hc, -⟩ | hc
    · exact absurd hc (by decide)
    · exact absurd hc (by decide)

theorem Formed.starts {cs : List Char} {form : ScalarStyle} (h : Formed cs form) (margin : Nat) :
    ∃ c rest, writtenAs form margin cs = c :: rest ∧ StartsToken c := by
  cases h with
  | plain h =>
    cases cs with
    | nil => exact absurd rfl h.nonempty
    | cons c cs => exact ⟨c, cs, rfl, h.starts⟩
  | singleQuoted h => exact ⟨_, _, rfl, by constructor <;> decide⟩
  | doubleQuoted => exact ⟨_, _, rfl, by constructor <;> decide⟩
  | literal => exact ⟨_, _, rfl, by constructor <;> decide⟩

/-! ## Plain scalars -/

theorem eq_of_isTripled {mark : Char} {m : Mark} {cs : List Char}
    (h : isTripled mark (placed m cs) = true) : ∃ rest, cs = mark :: mark :: mark :: rest := by
  match cs with
  | [] => exact absurd h Bool.false_ne_true
  | [_] => exact absurd h Bool.false_ne_true
  | [_, _] => exact absurd h Bool.false_ne_true
  | a :: b :: c :: rest =>
    simp only [placed, isTripled, Bool.and_eq_true, beq_iff_eq] at h
    obtain ⟨⟨⟨⟨-, ha⟩, hb⟩, hc⟩, -⟩ := h
    exact ⟨rest, by rw [ha, hb, hc]⟩

/-- A text that starts with no mark of a document does not make one with what follows it. -/
theorem isTripled_append (mark : Char) {cs tail : List Char} (hne : cs ≠ [])
    (h : [mark, mark, mark].isPrefixOf cs = false) (htail : tail.head? ≠ some mark) (m : Mark) :
    isTripled mark (placed m (cs ++ tail)) = false := by
  rw [Bool.eq_false_iff]
  intro htripled
  obtain ⟨rest, hrest⟩ := eq_of_isTripled htripled
  match cs with
  | [] => exact hne rfl
  | [a] =>
    simp only [List.cons_append, List.nil_append, List.cons.injEq] at hrest
    exact htail (by rw [hrest.2]; rfl)
  | [a, b] =>
    simp only [List.cons_append, List.nil_append, List.cons.injEq] at hrest
    exact htail (by rw [hrest.2.2]; rfl)
  | a :: b :: c :: cs =>
    simp only [List.cons_append, List.cons.injEq] at hrest
    obtain ⟨rfl, rfl, rfl, -⟩ := hrest
    simp [List.isPrefixOf] at h

theorem readToken_plain {c d : Char} {cs tail : List Char} (h : IsPlain (c :: cs)) (hdash : d ≠ '-')
    (hdot : d ≠ '.') {st : TokenState} (hflow : st.inFlow = false) (m : Mark) :
    st.readToken ⟨c, m⟩ (placed (m.behind c) (cs ++ d :: tail)) =
      st.readPlain ⟨c, m⟩ (placed (m.behind c) (cs ++ d :: tail)) := by
  have hall := h.allows
  simp only [allowsPlain, Bool.and_eq_true, Bool.not_eq_true', looksStructural,
    Bool.or_eq_false_iff, List.any_cons, List.any_nil] at hall
  obtain ⟨-, ⟨⟨hdashes, hdots, -⟩, -⟩, -⟩ := hall
  have htail : ∀ mark, d ≠ mark → (d :: tail).head? ≠ some mark := fun mark hne heq =>
    hne (Option.some.inj heq)
  have hdashes' := isTripled_append '-' (List.cons_ne_nil c cs) hdashes (htail _ hdash) m
  have hdots' := isTripled_append '.' (List.cons_ne_nil c cs) hdots (htail _ hdot) m
  rw [List.cons_append, placed] at hdashes' hdots'
  have hword : endsWord (some c) = false := by
    rw [endsWord, h.starts.not_gap, h.starts.not_break]
    rfl
  rcases h.front with ⟨hc, hnext⟩ | hc
  · have hnext' : nextChar (placed (m.behind c) (cs ++ d :: tail)) = cs.head? := by
      rw [nextChar_placed]
      cases cs with
      | nil => exact absurd hnext (by decide)
      | cons e cs => rfl
    have hgap : cs.head?.any isGap = false := by
      cases cs with
      | nil => rfl
      | cons e cs => exact (Bool.or_eq_false_iff.1 hnext).1
    rcases hc with rfl | rfl | rfl <;>
      simp [readToken, hdashes', hdots', hnext', hnext, startsPlain, hgap, hflow]
  · have hstarts : st.startsPlain c (nextChar (placed (m.behind c) (cs ++ d :: tail))) = true := by
      simp [startsPlain, hword, hc]
    simp [isIndicator, isFlowIndicator] at hc
    simp [readToken, hdashes', hdots', hstarts, hc]

/-! ## Reading scalars -/

namespace TokenState

/-- What a token is remembered as that may be a key. -/
def keyHere (st : TokenState) (m : Mark) : Option PossibleKey :=
  if st.keyAllowed then some ⟨st.indent == m.column, st.tokens.size, m⟩ else none

/-- The state behind a scalar. -/
def behindScalar (st : TokenState) (m : Mark) (kind : TokenKind) (broken : Bool)
    (rest : List Spot) : TokenState :=
  { st with
    rest := rest
    tokens := st.tokens.push ⟨kind, m⟩
    key := st.keyHere m
    keyAllowed := broken }

/-- A token is read next, and leaves another state. -/
def Reads (st st' : TokenState) : Prop :=
  ∃ s ss, st.rest = s :: ss ∧ st.readToken s ss = .ok st'

end TokenState

section Read
variable {p : Point} {st : TokenState} {m : Mark} (h : p.Holds st m)
include h

theorem Point.Holds.expectKey_eq : st.expectKey = .ok { st with key := st.keyHere m } := by
  have hkey := h.key
  have hmark := h.mark_eq
  rw [expectKey, keyHere]
  split
  · simp [dropKey_of_none hkey, hmark, h.not_inFlow, bind, Except.bind, pure, Except.pure]
  · rw [← hkey]

theorem Point.Holds.readPlain_eq {s : Spot} {ss : List Spot} (hs : s.mark = m) {scan : PlainScan}
    (hscan : plainFrom false (p.indent + 1) none [] (s :: ss) = .ok scan) :
    st.readPlain s ss = .ok (st.behindScalar m (.scalar (String.ofList scan.text) .plain)
      scan.broken scan.rest) := by
  have hscan' : plainFrom ({ st with key := st.keyHere m } : TokenState).inFlow (st.indent + 1) none
      [] (s :: ss) = .ok scan := by
    have hflow : ({ st with key := st.keyHere m } : TokenState).inFlow = false := h.not_inFlow
    rw [hflow, h.indent]
    exact hscan
  rw [readPlain, h.expectKey_eq]
  simp only [bind, Except.bind, hscan', hs]
  rfl

theorem Point.Holds.readQuoted_eq {c : Char} {ss : List Spot} (style : ScalarStyle) {cs : List Char}
    {rest : List Spot}
    (hread : quotedFrom (style == .doubleQuoted) m .text none [] ss = .ok (cs, rest)) :
    st.readQuoted style ⟨c, m⟩ ss =
      .ok (st.behindScalar m (.scalar (String.ofList cs) style) false rest) := by
  rw [readQuoted, h.expectKey_eq]
  simp only [bind, Except.bind, hread]
  rfl

theorem Point.Holds.reads {c : Char} {cs : List Char} {st' : TokenState} (htext : p.text = c :: cs)
    (hread : st.readToken ⟨c, m⟩ (placed (m.behind c) cs) = .ok st') : st.Reads st' :=
  ⟨⟨c, m⟩, placed (m.behind c) cs, by rw [h.rest, htext, placed], hread⟩

theorem Point.Holds.reaches {st' : TokenState} (hread : st.Reads st')
    (hstarts : ∀ c ∈ p.text.head?, StartsToken c) (hcolumn : p.indent ≤ p.column)
    (hlength : st'.rest.length < p.text.length) : st.Reaches st' := by
  obtain ⟨s, ss, hrest, htoken⟩ := hread
  refine reaches_of_token (h.advance_self hstarts hcolumn) hrest htoken ?_
  rw [h.rest, length_placed]
  exact hlength

theorem Point.Holds.reads_quoted {cs tail : List Char} {form : ScalarStyle} (hformed : Formed cs form)
    (hform : form = .singleQuoted ∨ form = .doubleQuoted) {margin : Nat} (hmargin : 0 < margin)
    (htext : p.text = writtenAs form margin cs ++ tail) (htail : tail.head? ≠ some '\x27') :
    st.Reads (st.behindScalar m (.scalar (String.ofList cs) form) false
      (placed (m.after (writtenAs form margin cs)) tail)) := by
  have hquote : m.behind '\x27' = m.next := Mark.behind_of_not_break (by decide)
  have hdouble : m.behind '\"' = m.next := Mark.behind_of_not_break (by decide)
  have hcolumn : 0 < m.next.column := Nat.succ_pos _
  cases hformed with
  | plain => exact absurd hform (by decide)
  | literal => exact absurd hform (by decide)
  | singleQuoted hcs =>
    have hread : quotedFrom false m .text none [] _ = _ :=
      quotedFrom_singleQuoted htail hcs hmargin hcolumn
    have htext' : p.text = '\x27' :: (singleQuotedChars margin false cs ++ '\x27' :: tail) := by
      simp [htext, writtenAs]
    refine h.reads htext' ?_
    rw [hquote, writtenAs, List.cons_append, Mark.after_cons, hquote]
    refine Eq.trans ?_ (h.readQuoted_eq (c := '\x27') .singleQuoted hread)
    simp [readToken, isTripled_of_ne]
  | doubleQuoted =>
    have hread : quotedFrom true m .text none [] _ = _ :=
      quotedFrom_doubleQuoted cs (b := []) hcolumn [] tail
    have htext' : p.text = '\"' :: (cs.flatMap doubleQuotedChar ++ '\"' :: tail) := by
      simp [htext, writtenAs]
    refine h.reads htext' ?_
    rw [hdouble, writtenAs, List.cons_append, Mark.after_cons, hdouble]
    refine Eq.trans ?_ (h.readQuoted_eq (c := '\"') .doubleQuoted hread)
    simp [readToken, isTripled_of_ne]

theorem Point.Holds.reads_plain_key {cs tail : List Char} (hcs : IsPlain cs)
    (hcolumn : p.indent ≤ p.column) (htext : p.text = cs ++ ':' :: tail)
    (htail : endsWord tail.head? = true) :
    st.Reads (st.behindScalar m (.scalar (String.ofList cs) .plain) false
      (placed (m.after cs) (':' :: tail))) := by
  have hmargin : p.indent + 1 ≤ m.column + 1 := by
    have := h.column
    omega
  have hscan := plainFrom_key hcs hmargin htail
  cases cs with
  | nil => exact absurd rfl hcs.nonempty
  | cons c cs =>
    rw [List.cons_append] at htext
    refine h.reads htext ?_
    rw [readToken_plain hcs (by decide) (by decide) h.not_inFlow]
    exact h.readPlain_eq rfl hscan

theorem Point.Holds.reads_plain_value {cs tail : List Char} (hcs : IsPlain cs) {k : Nat}
    (hcolumn : p.indent ≤ p.column) (hk : (k : Int) ≤ p.indent) (htail : StartsLine k tail)
    (htext : p.text = cs ++ '\n' :: (spaces k ++ tail)) :
    st.Reads (st.behindScalar m (.scalar (String.ofList cs) .plain) true
      (placed (m.after (cs ++ '\n' :: spaces k)) tail)) := by
  have hmargin : p.indent + 1 ≤ m.column + 1 := by
    have := h.column
    omega
  have hscan := plainFrom_value hcs hmargin (Int.lt_add_one_of_le hk) htail
  rw [Mark.after_append, Mark.after_cons]
  cases cs with
  | nil => exact absurd rfl hcs.nonempty
  | cons c cs =>
    rw [List.cons_append] at htext
    refine h.reads htext ?_
    rw [readToken_plain hcs (by decide) (by decide) h.not_inFlow]
    exact h.readPlain_eq rfl hscan

end Read

/-! ## Values -/

theorem Mark.after_line (m : Mark) (front : List Char) {c : Char} (hc : isBreak c = true) (k : Nat) :
    (m.after (front ++ c :: spaces k)).column = k ∧
      m.line < (m.after (front ++ c :: spaces k)).line := by
  have hline := m.line_le_after front
  rw [Mark.after_append, Mark.after_cons, Mark.behind_of_break hc, Mark.after_spaces]
  simp only [Mark.nextLine]
  omega

section Values
variable {indent : Int} {outer : List Int} {allowed : Bool} {kinds : List TokenKind} {column : Nat}
  {text : List Char}

/-- A token to the right of the innermost collection need not be a key. -/
theorem Point.Holds.keyHere_eq {st : TokenState} {m : Mark}
    (h : Point.Holds ⟨indent, outer, allowed, kinds, column, text⟩ st m) (hcolumn : indent < column) :
    ∀ key ∈ st.keyHere m, key.required = false ∧ key.mark = m := by
  intro key hkey
  rw [keyHere] at hkey
  split at hkey
  · obtain rfl := Option.some.inj hkey
    refine ⟨beq_eq_false_iff_ne.2 ?_, rfl⟩
    rw [h.indent, h.column]
    exact Int.ne_of_lt hcolumn
  · cases hkey

/-- A state that differs from one at a point by new tokens and what is left lies behind a value. -/
theorem Point.Holds.passed {front tail : List Char} {d : Char} {k : Nat} {st : TokenState} {m : Mark}
    (h : Point.Holds ⟨indent, outer, allowed, kinds, column, front ++ d :: (spaces k ++ tail)⟩ st m)
    (hd : isBreak d = true) (hcolumn : indent < column) {toks : Array Token} {new : List TokenKind}
    (htoks : toks.toList.map Token.kind = kinds ++ new) {key : Option PossibleKey}
    (hkey : ∀ x ∈ key, x ∈ st.keyHere m) {broken : Bool} {rest : List Spot}
    (hlength : tail.length ≤ rest.length)
    (hskips : skipBetween false false broken rest =
      (true, placed (m.after (front ++ d :: spaces k)) tail)) :
    Point.Passed ⟨indent, outer, true, kinds ++ new, k, tail⟩
      { st with tokens := toks, key := key, keyAllowed := broken, rest := rest }
      (m.after (front ++ d :: spaces k)) := by
  obtain ⟨hk, hline⟩ := m.after_line front hd k
  exact {
    column := hk
    skips := hskips
    length := hlength
    stop := by
      have hstop := h.stop
      rw [hstop, ← Mark.after_append, List.append_assoc]
      rfl
    indent := h.indent
    outer := h.outer
    key := fun x hx => by
      obtain ⟨hrequired, hmark⟩ := h.keyHere_eq hcolumn x (hkey x hx)
      exact ⟨hrequired, by rw [hmark]; exact hline⟩
    flow := h.flow
    allowed := rfl
    kinds := htoks }

theorem skipBetween_line (allowed : Bool) (m : Mark) (k : Nat) {tail : List Char}
    (htail : StartsLine k tail) :
    skipBetween false false allowed (placed m ('\n' :: (spaces k ++ tail))) =
      (true, placed (m.after ('\n' :: spaces k)) tail) := by
  rw [skipBetween_newline, skipBetween_spaces, skipBetween_token _ _ _ htail.starts, Mark.after_cons,
    Mark.behind_of_break isBreak_newline]

theorem ended_append_of_not_break {cs : List Char} {c : Char} (h : isBreak c = false) :
    Outline.ended (cs ++ [c]) = cs ++ [c] ++ ['\n'] := by
  simp [Outline.ended, h]

theorem ended_append_of_break {cs : List Char} {c : Char} (h : isBreak c = true) :
    Outline.ended (cs ++ [c]) = cs ++ [c] := by
  simp [Outline.ended, h]

theorem push_kinds {st : TokenState} {m : Mark}
    (h : Point.Holds ⟨indent, outer, allowed, kinds, column, text⟩ st m) (kind : TokenKind) :
    (st.tokens.push ⟨kind, m⟩).toList.map Token.kind = kinds ++ [kind] := by
  have hkinds := h.kinds
  simp [hkinds]

section Forms
variable {cs : List Char} {k : Nat} {tail : List Char} {st : TokenState} {m : Mark}

/-- What is read on one line lies behind as soon as the line end is next. -/
theorem passes_line {front : List Char} {kind : TokenKind}
    (h : Point.Holds ⟨indent, outer, allowed, kinds, column,
      front ++ '\n' :: (spaces k ++ tail)⟩ st m)
    (hcolumn : indent < column) (hstarts : ∃ c rest, front = c :: rest ∧ StartsToken c)
    (htail : StartsLine k tail)
    (hread : st.Reads (st.behindScalar m kind false
      (placed (m.after front) ('\n' :: (spaces k ++ tail))))) :
    ∃ st' m', Point.Passed ⟨indent, outer, true, kinds ++ [kind], k, tail⟩ st' m' ∧
      st.Reaches st' := by
  have hskips := skipBetween_line false (m.after front) k htail
  rw [← Mark.after_append] at hskips
  have hlength : tail.length ≤ (placed (m.after front) ('\n' :: (spaces k ++ tail))).length := by
    rw [length_placed, List.length_cons, List.length_append]
    omega
  refine ⟨_, _, h.passed isBreak_newline hcolumn (push_kinds h kind) (fun x hx => hx) hlength hskips,
    h.reaches hread ?_ (Int.le_of_lt hcolumn) ?_⟩
  · obtain ⟨c, rest, rfl, hc⟩ := hstarts
    exact hc.head _
  · obtain ⟨c, rest, rfl, -⟩ := hstarts
    simp only [length_placed, List.length_append, List.length_cons]
    omega

theorem passes_plain {indent : Nat} (hcs : IsPlain cs) (hcolumn : indent < column) (hk : k ≤ indent)
    (htail : StartsLine k tail)
    (h : Point.Holds ⟨indent, outer, allowed, kinds, column, cs ++ '\n' :: (spaces k ++ tail)⟩ st m) :
    ∃ st' m', Point.Passed ⟨indent, outer, true, kinds ++ [.scalar (String.ofList cs) .plain], k,
      tail⟩ st' m' ∧ st.Reaches st' := by
  have hcolumn' : (indent : Int) < column := by omega
  have hread := h.reads_plain_value hcs (Int.le_of_lt hcolumn') (by simpa using hk) htail rfl
  have hskips : skipBetween false false true (placed (m.after (cs ++ '\n' :: spaces k)) tail) =
      (true, placed (m.after (cs ++ '\n' :: spaces k)) tail) :=
    skipBetween_token _ _ _ htail.starts
  refine ⟨_, _, h.passed isBreak_newline hcolumn' (push_kinds h _) (fun x hx => hx)
    (Nat.le_of_eq (length_placed _ _).symm) hskips, h.reaches hread ?_ (Int.le_of_lt hcolumn') ?_⟩
  · cases cs with
    | nil => exact absurd rfl hcs.nonempty
    | cons c cs => exact hcs.starts.head _
  · simp only [length_placed, List.length_append, List.length_cons]
    omega

theorem exists_literalChars_concat (margin : Nat) (broken : Bool) (cs : List Char) (c : Char) :
    ∃ front, literalChars margin broken (cs ++ [c]) = front ++ [c] := by
  induction cs generalizing broken with
  | nil =>
    rw [List.nil_append, literalChars]
    split
    · exact ⟨[], rfl⟩
    · exact ⟨_, rfl⟩
  | cons d cs ih =>
    rw [List.cons_append, literalChars]
    split
    · obtain ⟨front, hfront⟩ := ih true
      exact ⟨d :: front, by rw [hfront]; rfl⟩
    · obtain ⟨front, hfront⟩ := ih false
      refine ⟨(if broken then spaces margin else []) ++ d :: front, ?_⟩
      rw [hfront, List.append_assoc]
      rfl

/-- A literal block ends with the line end of its text, or one that is put behind it. -/
theorem ended_literal (margin : Nat) (hne : cs ≠ []) :
    ∃ front d, isBreak d = true ∧
      literalChars margin true cs ++ lastLineEnd cs = front ++ [d] ∧
      Outline.ended (writtenAs .literal margin cs) =
        '|' :: (literalHints cs ++ '\n' :: (front ++ [d])) := by
  rcases List.eq_nil_or_concat cs with hnil | ⟨before, c, hcs⟩
  · exact absurd hnil hne
  rw [List.concat_eq_append] at hcs
  obtain ⟨front, hfront⟩ := exists_literalChars_concat margin true before c
  have hwritten : writtenAs .literal margin cs =
      '|' :: (literalHints cs ++ '\n' :: front) ++ [c] := by
    rw [writtenAs, hcs, hfront]
    simp
  have hlines : literalChars margin true cs = front ++ [c] := by rw [hcs, hfront]
  by_cases hc : isBreak c = true
  · have hend : lastLineEnd cs = [] := by simp [lastLineEnd, hcs, hc]
    refine ⟨front, c, hc, by rw [hlines, hend, List.append_nil], ?_⟩
    rw [hwritten, ended_append_of_break hc]
    simp
  · have hend : lastLineEnd cs = ['\n'] := by simp [lastLineEnd, hcs, hc]
    refine ⟨front ++ [c], '\n', isBreak_newline, by rw [hlines, hend], ?_⟩
    rw [hwritten, ended_append_of_not_break (Bool.eq_false_iff.2 hc)]
    simp

theorem passes_literal {indent : Nat} (hprintable : ∀ c ∈ cs, isPrintable c = true) (hne : cs ≠ [])
    (hcolumn : indent < column) (hk : k ≤ indent) (htail : StartsLine k tail)
    (h : Point.Holds ⟨indent, outer, allowed, kinds, column,
      Outline.ended (writtenAs .literal (indent + 2) cs) ++ (spaces k ++ tail)⟩ st m) :
    ∃ st' m', Point.Passed ⟨indent, outer, true, kinds ++ [.scalar (String.ofList cs) .literal], k,
      tail⟩ st' m' ∧ st.Reaches st' := by
  have hcolumn' : (indent : Int) < column := by omega
  obtain ⟨front, d, hd, hlines, hended⟩ := ended_literal (indent + 2) hne
  have hbar : m.behind '|' = m.next := Mark.behind_of_not_break (by decide)
  have hlines' : ∀ rest, literalChars (indent + 2) true cs ++ (lastLineEnd cs ++ rest) =
      front ++ d :: rest := fun rest => by
    rw [← List.append_assoc, hlines, List.append_assoc]
    rfl
  have htext : '|' :: (literalHints cs ++ '\n' :: (front ++ [d])) ++ (spaces k ++ tail) =
      '|' :: (literalHints cs ++ '\n' :: front) ++ d :: (spaces k ++ tail) := by simp
  rw [hended, htext] at h
  have hmargin : k < indent + 2 := by omega
  obtain ⟨m', hm', hscan⟩ := blockScalar_literal hprintable hne hmargin htail m.next
  rw [hlines'] at hm' hscan
  have hmark : m' = m.after ('|' :: (literalHints cs ++ '\n' :: front) ++ d :: spaces k) := by
    rw [hm', List.cons_append, Mark.after_cons, hbar, List.append_assoc]
    rfl
  have hread : st.Reads { st with
      rest := placed m' tail
      tokens := st.tokens.push ⟨.scalar (String.ofList cs) .literal, m⟩
      key := none
      keyAllowed := true } := by
    have hchosen : ∀ ss, st.readToken ⟨'|', m⟩ ss = st.readBlockScalar .literal ⟨'|', m⟩ ss := by
      intro ss
      simp [readToken, isTripled_of_ne, h.not_inFlow]
    have hkey := h.key
    have hfolded : (ScalarStyle.literal == ScalarStyle.folded) = false := by decide
    have hindent : st.indent = (indent : Int) := h.indent
    rw [← hindent] at hscan
    have hbehind : '|' :: (literalHints cs ++ '\n' :: front) ++ d :: (spaces k ++ tail) =
        '|' :: (literalHints cs ++ '\n' :: (front ++ d :: (spaces k ++ tail))) := by simp
    refine h.reads hbehind ?_
    rw [hbar, hchosen, readBlockScalar, dropKey_of_none hkey]
    simp only [bind, Except.bind, hfolded, hscan]
    rw [← hkey]
    rfl
  rw [hmark] at hread
  refine ⟨_, _, h.passed hd hcolumn' (push_kinds h _) (fun x hx => absurd hx (by simp)) ?_
    (skipBetween_token _ _ _ htail.starts), h.reaches hread ?_ (Int.le_of_lt hcolumn') ?_⟩
  · exact Nat.le_of_eq (length_placed _ _).symm
  · exact StartsToken.head (by constructor <;> decide) _
  · simp only [length_placed, List.length_append, List.length_cons]
    omega

theorem passes_formed {indent : Nat} {form : ScalarStyle} (hformed : Formed cs form)
    (hcolumn : indent < column) (hk : k ≤ indent) (htail : StartsLine k tail)
    (h : Point.Holds ⟨indent, outer, allowed, kinds, column,
      Outline.ended (writtenAs form (indent + 2) cs) ++ (spaces k ++ tail)⟩ st m) :
    ∃ st' m', Point.Passed ⟨indent, outer, true, kinds ++ [.scalar (String.ofList cs) form], k,
      tail⟩ st' m' ∧ st.Reaches st' := by
  have hcolumn' : (indent : Int) < column := by omega
  have hnext : ('\n' :: (spaces k ++ tail)).head? ≠ some '\x27' := by
    intro heq
    exact absurd (Option.some.inj heq) (by decide)
  have hstarts := hformed.starts (indent + 2)
  cases hformed with
  | plain hcs =>
    have hended : Outline.ended (writtenAs .plain (indent + 2) cs) = cs ++ ['\n'] := by
      rcases List.eq_nil_or_concat cs with hnil | ⟨before, c, heq⟩
      · exact absurd hnil hcs.nonempty
      rw [List.concat_eq_append] at heq
      have hc : isBreak c = false := hcs.one_line c (by simp [heq])
      rw [writtenAs, heq]
      exact ended_append_of_not_break hc
    rw [hended, List.append_assoc] at h
    exact passes_plain hcs hcolumn hk htail h
  | singleQuoted hcs =>
    have hended : Outline.ended (writtenAs .singleQuoted (indent + 2) cs) =
        writtenAs .singleQuoted (indent + 2) cs ++ ['\n'] :=
      ended_append_of_not_break (by decide)
    rw [hended, List.append_assoc] at h
    exact passes_line h hcolumn' hstarts htail
      (h.reads_quoted (.singleQuoted hcs) (.inl rfl) (Nat.succ_pos _) rfl hnext)
  | doubleQuoted =>
    have hended : Outline.ended (writtenAs .doubleQuoted (indent + 2) cs) =
        writtenAs .doubleQuoted (indent + 2) cs ++ ['\n'] :=
      ended_append_of_not_break (by decide)
    rw [hended, List.append_assoc] at h
    exact passes_line h hcolumn' hstarts htail
      (h.reads_quoted .doubleQuoted (.inr rfl) (Nat.succ_pos _) rfl hnext)
  | literal hnewline hprintable =>
    exact passes_literal hprintable (List.ne_nil_of_mem hnewline) hcolumn hk htail h

end Forms

theorem leads_scalar (s : String) {indent k : Nat} (hcolumn : indent < column) (hk : k ≤ indent)
    {tail : List Char} (htail : StartsLine k tail) :
    Leads ⟨indent, outer, allowed, kinds, column,
        Outline.ended (written (indent + 2) s) ++ (spaces k ++ tail)⟩
      ⟨indent, outer, true, kinds ++ [.scalar s (formOf s)], k, tail⟩ := by
  refine leads_passed htail.starts fun st m h => ?_
  have hpasses := passes_formed (formed s) hcolumn hk htail h
  rw [String.ofList_toList] at hpasses
  exact hpasses

/-! ## Empty collections -/

/-- The two brackets of an empty collection. -/
structure Brackets (c d : Char) (start stop : TokenKind) : Prop where
  starts_open : StartsToken c
  starts_close : StartsToken d
  opens : ∀ (st : TokenState) m ss, st.readToken ⟨c, m⟩ ss = st.openFlow start ⟨c, m⟩ ss
  closes : ∀ (st : TokenState) m ss, st.readToken ⟨d, m⟩ ss = st.closeFlow stop ⟨d, m⟩ ss

theorem squareBrackets : Brackets '[' ']' .flowSequenceStart .flowSequenceEnd where
  starts_open := by constructor <;> decide
  starts_close := by constructor <;> decide
  opens st m ss := by simp [readToken, isTripled_of_ne]
  closes st m ss := by simp [readToken, isTripled_of_ne]

theorem curlyBrackets : Brackets '\x7b' '\x7d' .flowMappingStart .flowMappingEnd where
  starts_open := by constructor <;> decide
  starts_close := by constructor <;> decide
  opens st m ss := by simp [readToken, isTripled_of_ne]
  closes st m ss := by simp [readToken, isTripled_of_ne]

/-- The state inside the brackets of an empty collection. -/
def TokenState.insideBrackets (st : TokenState) (m : Mark) (start : TokenKind)
    (rest : List Spot) : TokenState :=
  { st with
    rest := rest
    tokens := st.tokens.push ⟨start, m⟩
    key := none
    outerKeys := [st.keyHere m]
    keyAllowed := true }

/-- The state behind an empty collection. -/
def TokenState.behindBrackets (st : TokenState) (m : Mark) (start stop : TokenKind)
    (rest : List Spot) : TokenState :=
  { st with
    rest := rest
    tokens := (st.tokens.push ⟨start, m⟩).push ⟨stop, m.next⟩
    key := st.keyHere m
    keyAllowed := false }

section Brackets
variable {c d : Char} {start stop : TokenKind} (hbrackets : Brackets c d start stop) {st : TokenState}
  {m : Mark}
include hbrackets

theorem reads_open {rest : List Char}
    (h : Point.Holds ⟨indent, outer, allowed, kinds, column, c :: rest⟩ st m) :
    st.Reads (st.insideBrackets m start (placed m.next rest)) := by
  refine h.reads rfl ?_
  have hflow := h.flow
  rw [hbrackets.opens, openFlow, h.expectKey_eq,
    Mark.behind_of_not_break hbrackets.starts_open.not_break]
  simp only [bind, Except.bind, hflow]
  rfl

theorem reaches_close (hflow : st.outerKeys = []) (rest : List Char) :
    (st.insideBrackets m start (placed m.next (d :: rest))).Reaches
      (st.behindBrackets m start stop (placed m.next.next rest)) := by
  have hd : m.next.behind d = m.next.next :=
    Mark.behind_of_not_break hbrackets.starts_close.not_break
  have hstarts := hbrackets.starts_close.head rest
  have hadvance : (st.insideBrackets m start (placed m.next (d :: rest))).advance =
      .ok (st.insideBrackets m start (placed m.next (d :: rest))) := by
    rw [advance]
    simp only [insideBrackets, skipBetween_token _ _ _ hstarts]
    rfl
  have hrest : (st.insideBrackets m start (placed m.next (d :: rest))).rest =
      ⟨d, m.next⟩ :: placed m.next.next rest := by
    rw [← hd]
    rfl
  refine reaches_of_token hadvance hrest ?_ ?_
  · rw [hbrackets.closes, closeFlow, behindBrackets, hflow]
    rfl
  · rw [hrest]
    exact Nat.lt_succ_self _

theorem leads_brackets (hcolumn : indent < column) {k : Nat} {tail : List Char}
    (htail : StartsLine k tail) :
    Leads ⟨indent, outer, allowed, kinds, column, c :: d :: '\n' :: (spaces k ++ tail)⟩
      ⟨indent, outer, true, kinds ++ [start, stop], k, tail⟩ := by
  refine leads_passed htail.starts fun st m h => ?_
  have hfront : m.next.next = m.after [c, d] := by
    rw [Mark.after_cons, Mark.behind_of_not_break hbrackets.starts_open.not_break, Mark.after_cons,
      Mark.behind_of_not_break hbrackets.starts_close.not_break, Mark.after_nil]
  have hopen : st.Reaches _ := h.reaches (reads_open hbrackets h) (hbrackets.starts_open.head _)
    (Int.le_of_lt hcolumn) (by simp [insideBrackets, length_placed])
  have hclose := reaches_close hbrackets (m := m) h.flow ('\n' :: (spaces k ++ tail))
  have hskips := skipBetween_line false m.next.next k htail
  rw [hfront, ← Mark.after_append] at hskips
  have htoks : (st.behindBrackets m start stop []).tokens.toList.map Token.kind =
      kinds ++ [start, stop] := by
    have hkinds := h.kinds
    simp [behindBrackets, hkinds]
  refine ⟨_, _, Point.Holds.passed h isBreak_newline hcolumn htoks
    (fun x hx => hx) ?_ hskips, hopen.trans (hfront ▸ hclose)⟩
  simp only [length_placed, List.length_cons, List.length_append]
  omega

end Brackets

end Values

end ColumnAudit.Yaml
