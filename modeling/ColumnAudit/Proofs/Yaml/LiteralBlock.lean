import ColumnAudit.Proofs.Yaml.PlainScalar

/-! # Literal blocks

A literal block holds the lines of a text behind a margin. Line by line the reader takes over all
characters (`blockFrom_literalChars`); what becomes of the line ends behind the last line is decided by the
chomping, which the printer chooses so that just those of the text remain (`blockScalar_literal`).
-/

namespace ColumnAudit.Yaml
set_option autoImplicit false

/-! ## The state of a reader -/

namespace BlockState

/-- What has been read so far, with the line ends that have not been decided on yet. -/
def content (st : BlockState) : List Char :=
  st.done.reverse ++ (st.lineEnd.toList ++ st.blankLines)

/-- In a line no line ends wait, and the indentation is known. At the start of one it is known or will be
seen at the next character. -/
structure Reads (st : BlockState) (margin : Nat) (m : Mark) (cs : List Char) : Prop where
  waiting : st.inLine = true → st.lineEnd = none ∧ st.blankLines = []
  known : st.inLine = true → st.indent = some margin
  column : st.inLine = false → m.column = 0
  shown : st.indent = some margin ∨
    (st.indent = none ∧ st.widest = 0 ∧ ∃ c, cs.head? = some c ∧ c ≠ ' ' ∧ isBreak c = false)

theorem Reads.indent_eq {st : BlockState} {margin : Nat} {m : Mark} (h : st.Reads margin m []) :
    st.indent = some margin := by
  rcases h.shown with hshown | ⟨-, -, c, hc, -⟩
  · exact hshown
  · cases hc

theorem Reads.of_nil {st : BlockState} {margin : Nat} {m : Mark} (h : st.Reads margin m [])
    (cs : List Char) : st.Reads margin m cs :=
  ⟨h.waiting, h.known, h.column, .inl h.indent_eq⟩

theorem Reads.content_eq {st : BlockState} {margin : Nat} {m : Mark} {cs : List Char}
    (h : st.Reads margin m cs) (hline : st.inLine = true) : st.content = st.done.reverse := by
  obtain ⟨hnone, hnil⟩ := h.waiting hline
  simp [content, hnone, hnil]

end BlockState

/-! ## Lines -/

section Lines
variable (chomping : Chomping) {parent : Int} {margin : Nat}

theorem blockFrom_spaces {st : BlockState} (hline : st.inLine = false)
    (hindent : ∀ n ∈ st.indent, n = margin) {k : Nat} {m : Mark} (hk : m.column + k ≤ margin)
    (rest : List Char) :
    blockFrom false chomping parent st (placed m (spaces k ++ rest)) =
      blockFrom false chomping parent st (placed (m.after (spaces k)) rest) := by
  induction k generalizing m with
  | zero => rfl
  | succ k ih =>
    have hspaces : spaces (k + 1) = ' ' :: spaces k := rfl
    have hmargin : (st.indent.all fun n => decide (m.column < n)) = true := by
      cases h : st.indent with
      | none => rfl
      | some n =>
        rw [Option.all_some, decide_eq_true_eq, hindent n h]
        omega
    rw [hspaces, List.cons_append, placed, blockFrom]
    simp only [hline, hmargin, Bool.false_eq_true, if_false, beq_self_eq_true, Bool.and_self,
      if_true]
    rw [Mark.behind_of_not_break isBreak_space, ih (by simp only [Mark.next]; omega),
      Mark.after_cons, Mark.behind_of_not_break isBreak_space]

theorem blockFrom_break (parent : Int) {st : BlockState} {m : Mark} {c : Char} {cs : List Char}
    (h : st.Reads margin m (c :: cs)) (hc : isBreak c = true) (rest : List Char) :
    ∃ st', blockFrom false chomping parent st (placed m (c :: rest)) =
        blockFrom false chomping parent st' (placed (m.behind c) rest) ∧
      st'.content = st.content ++ [c] ∧ st'.inLine = false ∧ st'.indent = some margin ∧
      (st.inLine = true → st'.done = st.done ∧ st'.lineEnd = some c ∧ st'.blankLines = []) := by
  have hshown : st.indent = some margin := by
    rcases h.shown with hshown | ⟨-, -, d, hd, -, hd'⟩
    · exact hshown
    · obtain rfl := Option.some.inj hd
      rw [hc] at hd'
      cases hd'
  rw [placed, blockFrom]
  cases hline : st.inLine with
  | true =>
    obtain ⟨hnone, hnil⟩ := h.waiting hline
    simp only [hc, if_true]
    refine ⟨_, rfl, ?_, rfl, hshown, fun _ => ⟨rfl, rfl, hnil⟩⟩
    simp [BlockState.content, hnone, hnil]
  | false =>
    have hspace : (c == ' ') = false := by
      rw [beq_eq_false_iff_ne]
      rintro rfl
      exact absurd hc (by decide)
    have htab : (c == '\t') = false := by
      rw [beq_eq_false_iff_ne]
      rintro rfl
      exact absurd hc (by decide)
    simp only [hspace, htab, hc, Bool.and_false, Bool.false_eq_true, if_false, if_true]
    refine ⟨_, rfl, ?_, rfl, hshown, fun h => absurd h (by decide)⟩
    simp [BlockState.content]

/-- A character of a line, with the margin in front of the line if it is the first one. -/
theorem blockFrom_char {st : BlockState} {m : Mark} {c : Char} {cs : List Char}
    (hparent : (parent + 1).toNat ≤ margin) (hpos : 0 < margin)
    (h : st.Reads margin m (c :: cs)) (hprintable : isPrintable c = true) (hc : isBreak c = false)
    (rest : List Char) :
    ∃ st', blockFrom false chomping parent st
        (placed m ((if st.inLine then [] else spaces margin) ++ c :: rest)) =
        blockFrom false chomping parent st'
          (placed (m.after ((if st.inLine then [] else spaces margin) ++ [c])) rest) ∧
      st'.content = st.content ++ [c] ∧ st'.inLine = true ∧ st'.indent = some margin ∧
      st'.lineEnd = none ∧ st'.blankLines = [] := by
  cases hline : st.inLine with
  | true =>
    obtain ⟨hnone, hnil⟩ := h.waiting hline
    simp only [if_true, List.nil_append]
    rw [placed, blockFrom]
    simp only [hline, hc, if_true, Bool.false_eq_true, if_false]
    refine ⟨_, rfl, ?_, rfl, h.known hline, hnone, hnil⟩
    simp [BlockState.content, hnone, hnil]
  | false =>
    have hcolumn := h.column hline
    have hindent : ∀ n ∈ st.indent, n = margin := by
      intro n hn
      rcases h.shown with hshown | ⟨hnone, -⟩
      · exact (Option.some.inj (hshown.symm.trans hn)).symm
      · rw [hnone] at hn
        cases hn
    have hafter : (m.after (spaces margin)).column = margin := by
      rw [Mark.after_spaces, hcolumn, Nat.zero_add]
    have htab : (c == '\t') = false := beq_eq_false_iff_ne.2 (ne_tab_of_printable hprintable)
    -- At the margin even a blank belongs to the line; where the margin is yet to be seen there is none.
    have hmargin : ((st.indent.all fun n => decide (margin < n)) && c == ' ') = false := by
      rcases h.shown with hshown | ⟨-, -, d, hd, hspace, -⟩
      · rw [hshown, Option.all_some]
        simp
      · obtain rfl := Option.some.inj hd
        rw [beq_eq_false_iff_ne.2 hspace, Bool.and_false]
    have hfound : st.indent.getD (max (max (max st.widest margin) (parent + 1).toNat) 1) =
        margin := by
      rcases h.shown with hshown | ⟨hnone, hwidest, -⟩
      · rw [hshown]
        rfl
      · rw [hnone, hwidest, Option.getD_none]
        omega
    simp only [Bool.false_eq_true, if_false]
    rw [blockFrom_spaces chomping hline hindent (by omega), placed, blockFrom]
    simp only [hline, hafter, hmargin, htab, hc, hfound, Bool.and_false, Bool.false_eq_true, if_false,
      if_true]
    refine ⟨_, by rw [Mark.after_append]; rfl, ?_, rfl, rfl, rfl, rfl⟩
    simp [BlockState.content, BlockState.startLine]

/-- The lines of a literal block are taken over as they are. -/
theorem blockFrom_literalChars {st : BlockState} {m : Mark} {cs : List Char}
    (hparent : (parent + 1).toNat ≤ margin) (hpos : 0 < margin)
    (hprintable : ∀ c ∈ cs, isPrintable c = true) (h : st.Reads margin m cs) (rest : List Char) :
    ∃ st' m', m' = m.after (literalChars margin (!st.inLine) cs) ∧
      blockFrom false chomping parent st
          (placed m (literalChars margin (!st.inLine) cs ++ rest)) =
        blockFrom false chomping parent st' (placed m' rest) ∧
      st'.content = st.content ++ cs ∧ st'.Reads margin m' [] ∧
      st'.inLine = (cs.getLast?.map fun c => !isBreak c).getD st.inLine := by
  induction cs generalizing st m with
  | nil => exact ⟨st, m, rfl, rfl, by rw [List.append_nil], h, rfl⟩
  | cons c cs ih =>
    -- Behind a line end the next character stands behind a margin again, behind any other it does not:
    -- this is what `!st.inLine` says in both cases.
    have hprintable' : ∀ d ∈ cs, isPrintable d = true :=
      fun d hd => hprintable d (List.mem_cons_of_mem _ hd)
    have hlast : ((c :: cs).getLast?.map fun c => !isBreak c).getD st.inLine =
        (cs.getLast?.map fun c => !isBreak c).getD (!isBreak c) := by
      rw [List.getLast?_cons]
      cases cs.getLast? <;> rfl
    by_cases hc : isBreak c = true
    · have hshape : literalChars margin (!st.inLine) (c :: cs) = c :: literalChars margin true cs := by
        rw [literalChars, if_pos hc]
      obtain ⟨st1, hstep, hcontent, hline, hindent, -⟩ :=
        blockFrom_break chomping parent h hc (literalChars margin true cs ++ rest)
      have hreads : st1.Reads margin (m.behind c) cs :=
        ⟨fun h => absurd (hline.symm.trans h) (by decide),
          fun h => absurd (hline.symm.trans h) (by decide),
          fun _ => by rw [Mark.behind_of_break hc]; rfl, .inl hindent⟩
      obtain ⟨st', m', hm, hrest, hcontent', hreads', hline'⟩ := ih hprintable' hreads
      rw [hline] at hm hrest hline'
      refine ⟨st', m', ?_, ?_, by rw [hcontent', hcontent, List.append_assoc]; rfl, hreads', ?_⟩
      · rw [hm, hshape, Mark.after_cons]
        rfl
      · rw [hshape, List.cons_append, hstep]
        exact hrest
      · rw [hlast, hline', hc]
        rfl
    · have hc' := Bool.eq_false_iff.2 hc
      have hshape : literalChars margin (!st.inLine) (c :: cs) =
          ((if st.inLine then [] else spaces margin) ++ [c]) ++ literalChars margin false cs := by
        rw [literalChars, if_neg hc]
        cases st.inLine <;> simp
      obtain ⟨st1, hstep, hcontent, hline, hindent, hnone, hnil⟩ :=
        blockFrom_char chomping hparent hpos h (hprintable c (List.mem_cons_self ..)) hc'
          (literalChars margin false cs ++ rest)
      have hreads : st1.Reads margin
          (m.after ((if st.inLine then [] else spaces margin) ++ [c])) cs :=
        ⟨fun _ => ⟨hnone, hnil⟩, fun _ => hindent,
          fun h => absurd (hline.symm.trans h) (by decide), .inl hindent⟩
      obtain ⟨st', m', hm, hrest, hcontent', hreads', hline'⟩ := ih hprintable' hreads
      rw [hline] at hm hrest hline'
      refine ⟨st', m', ?_, ?_, by rw [hcontent', hcontent, List.append_assoc]; rfl, hreads', ?_⟩
      · rw [hm, hshape, ← Mark.after_append]
        rfl
      · rw [hshape, List.append_assoc, List.append_assoc]
        exact hstep.trans hrest
      · rw [hlast, hline', hc']
        rfl

/-- A literal block ends in front of a line that starts further to the left. -/
theorem blockFrom_end {st : BlockState} {m : Mark} (hline : st.inLine = false)
    (hindent : st.indent = some margin) (hcolumn : m.column = 0) {k : Nat} (hk : k < margin)
    {tail : List Char} (htail : StartsLine k tail) :
    blockFrom false chomping parent st (placed m (spaces k ++ tail)) =
      .ok (st.finish chomping, placed (m.after (spaces k)) tail) := by
  have hknown : ∀ n ∈ st.indent, n = margin := fun n hn =>
    (Option.some.inj (hindent.symm.trans hn)).symm
  have hafter : (m.after (spaces k)).column = k := by
    rw [Mark.after_spaces, hcolumn, Nat.zero_add]
  rw [blockFrom_spaces chomping hline hknown (by omega)]
  cases tail with
  | nil =>
    rw [placed, blockFrom]
  | cons c tail =>
    have hgap := (htail.starts c rfl).not_gap
    have hbreak := (htail.starts c rfl).not_break
    simp only [isGap, Bool.or_eq_false_iff] at hgap
    have hne : ¬ k = margin := by omega
    rw [placed, blockFrom]
    simp [hline, hindent, hafter, hgap, hbreak, hne]

end Lines

/-! ## Headers -/

/-- The letter of a header that asks for a chomping. -/
def chompingChars : Chomping → List Char
  | .strip => ['-']
  | .clip => []
  | .keep => ['+']

/-- A header whose increment is given unless it is shown by the first line. -/
def headerChars (shown : Bool) (chomping : Chomping) : List Char :=
  (if shown then [] else ['2']) ++ chompingChars chomping

theorem blockHeader_headerChars (shown : Bool) (chomping : Chomping) (m : Mark)
    (rest : List Char) :
    blockHeader (placed m (headerChars shown chomping ++ '\n' :: rest)) =
      .ok (⟨chomping, if shown then none else some 2⟩,
        placed (m.after (headerChars shown chomping)) ('\n' :: rest)) := by
  cases shown <;> cases chomping <;> rfl

/-- Whether the first line shows the margin. -/
def showsMargin (cs : List Char) : Bool := !cs.head?.any fun c => isSpace c || isBreak c

theorem blockScalar_header (shown : Bool) (chomping : Chomping) (indent : Nat) (m : Mark)
    (rest : List Char) :
    blockScalar false indent (placed m (headerChars shown chomping ++ '\n' :: rest)) =
      blockFrom false chomping indent
        ⟨if shown then none else some (indent + 2), 0, [], none, [], false, false⟩
        (placed (m.after (headerChars shown chomping ++ ['\n'])) rest) := by
  have hbehind : ∀ m : Mark, behindHeader (placed m ('\n' :: rest)) =
      .ok (placed (m.behind '\n') rest) := fun _ => rfl
  have hindent : (max (indent : Int) 0).toNat = indent := by omega
  rw [blockScalar, blockHeader_headerChars, Mark.after_append]
  simp only [bind, Except.bind, hbehind, hindent]
  cases shown <;> rfl

/-! ## Whole blocks -/

/-- What the printer asks for: which line ends behind the last line are to remain. -/
inductive Chomped : List Char → Chomping → Prop
  | strip (front : List Char) (c : Char) (h : isBreak c = false) : Chomped (front ++ [c]) .strip
  | clip (front : List Char) (c d : Char) (hc : isBreak c = false) (hd : isBreak d = true) :
    Chomped (front ++ [c, d]) .clip
  | keep (front : List Char) (c : Char) (h : isBreak c = true) : Chomped (front ++ [c]) .keep

theorem literalHints_eq {cs : List Char} (hne : cs ≠ []) :
    ∃ chomping, literalHints cs = headerChars (showsMargin cs) chomping ∧ Chomped cs chomping := by
  rcases List.eq_nil_or_concat cs with hnil | ⟨front, c, hcs⟩
  · exact absurd hnil hne
  rw [List.concat_eq_append] at hcs
  have hreverse : cs.reverse = c :: front.reverse := by rw [hcs, List.reverse_concat]
  unfold literalHints
  rw [hreverse]
  by_cases hc : isBreak c = true
  · rcases List.eq_nil_or_concat front with hfront | ⟨before, d, hfront⟩
    · refine ⟨.keep, ?_, hcs ▸ .keep front c hc⟩
      simp [hc, hfront, headerChars, showsMargin, chompingChars]
    · rw [List.concat_eq_append] at hfront
      by_cases hd : isBreak d = true
      · refine ⟨.keep, ?_, hcs ▸ .keep front c hc⟩
        simp [hc, hd, hfront, headerChars, showsMargin, chompingChars]
      · have hd' := Bool.eq_false_iff.2 hd
        refine ⟨.clip, ?_, ?_⟩
        · simp [hc, hd', hfront, headerChars, showsMargin, chompingChars]
        · rw [hcs, hfront, List.append_assoc]
          exact .clip before d c hd' hc
  · have hc' := Bool.eq_false_iff.2 hc
    refine ⟨.strip, ?_, hcs ▸ .strip front c hc'⟩
    simp [hc', headerChars, showsMargin, chompingChars]

theorem literalChars_concat_break (margin : Nat) (broken : Bool) (cs : List Char) {c : Char}
    (hc : isBreak c = true) :
    literalChars margin broken (cs ++ [c]) = literalChars margin broken cs ++ [c] := by
  induction cs generalizing broken with
  | nil => simp [literalChars, hc]
  | cons d cs ih =>
    rw [List.cons_append, literalChars, literalChars]
    split
    · rw [ih]
      rfl
    · rw [ih, List.append_assoc]
      rfl

/-- The line end that is put behind a literal block which has none. -/
def lastLineEnd (cs : List Char) : List Char := if cs.getLast?.any isBreak then [] else ['\n']

section Whole
variable {margin k : Nat} {parent : Int} {tail : List Char} {st : BlockState} {m : Mark}
  (hparent : (parent + 1).toNat ≤ margin) (hpos : 0 < margin) (hk : k < margin)
  (htail : StartsLine k tail) (hline : st.inLine = false) (hempty : st.content = [])
include hparent hpos hk htail hline hempty

/-- Lines up to a character, one line end and then the end of the block. -/
theorem blockFrom_last_line {cs : List Char} (hprintable : ∀ c ∈ cs, isPrintable c = true)
    (hlast : ∀ c ∈ cs.getLast?, isBreak c = false) (hne : cs ≠ []) (chomping : Chomping)
    (h : st.Reads margin m cs) {c : Char} (hc : isBreak c = true) :
    ∃ st' : BlockState, st'.done.reverse = cs ∧ st'.lineEnd = some c ∧ st'.blankLines = [] ∧
      blockFrom false chomping parent st
          (placed m (literalChars margin true cs ++ c :: (spaces k ++ tail))) =
        .ok (st'.finish chomping,
          placed (m.after (literalChars margin true cs ++ c :: spaces k)) tail) := by
  have hstart : (!st.inLine) = true := by rw [hline]; rfl
  obtain ⟨st1, m', hm, hread, hcontent, hreads, hinLine⟩ :=
    blockFrom_literalChars chomping hparent hpos hprintable h (c :: (spaces k ++ tail))
  have hin : st1.inLine = true := by
    rw [hinLine, List.getLast?_eq_some_getLast hne, Option.map_some, Option.getD_some,
      hlast _ (List.getLast?_eq_some_getLast hne)]
    rfl
  obtain ⟨st', hstep, -, hout, hindent, hdone⟩ :=
    blockFrom_break chomping parent (hreads.of_nil [c]) hc (spaces k ++ tail)
  obtain ⟨hdone, hend, hnil⟩ := hdone hin
  have hcolumn : (m'.behind c).column = 0 := by
    rw [Mark.behind_of_break hc]
    rfl
  rw [hstart] at hm hread
  refine ⟨st', ?_, hend, hnil, ?_⟩
  · rw [hdone, ← hreads.content_eq hin, hcontent, hempty, List.nil_append]
  · rw [hread, hstep, blockFrom_end chomping hout hindent hcolumn hk htail, hm, Mark.after_append,
      Mark.after_cons]

/-- A block in which just those line ends remain that the text ends with. -/
theorem blockFrom_literal {cs : List Char} (hprintable : ∀ c ∈ cs, isPrintable c = true)
    {chomping : Chomping} (hchomped : Chomped cs chomping) (h : st.Reads margin m cs) :
    blockFrom false chomping parent st
        (placed m (literalChars margin true cs ++ (lastLineEnd cs ++ (spaces k ++ tail)))) =
      .ok (cs, placed (m.after (literalChars margin true cs ++ (lastLineEnd cs ++ spaces k)))
        tail) := by
  cases hchomped with
  | strip front c hc =>
    have hend : lastLineEnd (front ++ [c]) = ['\n'] := by simp [lastLineEnd, hc]
    obtain ⟨st', hdone, -, -, hread⟩ :=
      blockFrom_last_line hparent hpos hk htail hline hempty hprintable (by simpa using hc) (by simp)
        .strip h isBreak_newline
    have hresult : st'.finish .strip = front ++ [c] := by simp [BlockState.finish, hdone]
    rw [hend, List.cons_append, List.nil_append, hread, hresult]
    rfl
  | clip front c d hc hd =>
    -- The last line end is the one that a clipped block keeps, so the lines are read up to it only.
    have hcs : front ++ [c, d] = front ++ [c] ++ [d] := by simp
    have hend : lastLineEnd (front ++ [c, d]) = [] := by simp [lastLineEnd, hd]
    have hprintable' : ∀ e ∈ front ++ [c], isPrintable e = true := fun e he =>
      hprintable e (hcs ▸ List.mem_append_left _ he)
    have h' : st.Reads margin m (front ++ [c]) := by
      refine ⟨h.waiting, h.known, h.column, h.shown.imp_right ?_⟩
      rintro ⟨hnone, hwidest, e, he, hshown⟩
      refine ⟨hnone, hwidest, e, ?_, hshown⟩
      rw [← he]
      cases front <;> rfl
    obtain ⟨st', hdone, hlineEnd, -, hread⟩ :=
      blockFrom_last_line hparent hpos hk htail hline hempty hprintable' (by simpa using hc)
        (by simp) .clip h' hd
    have hresult : st'.finish .clip = front ++ [c, d] := by
      simp [BlockState.finish, hdone, hlineEnd]
    rw [hend, hcs, literalChars_concat_break margin true _ hd, List.append_assoc, List.nil_append,
      List.nil_append, List.cons_append, List.nil_append, hread, hresult, hcs,
      List.append_assoc (literalChars ..)]
    rfl
  | keep front c hc =>
    have hend : lastLineEnd (front ++ [c]) = [] := by simp [lastLineEnd, hc]
    have hstart : (!st.inLine) = true := by rw [hline]; rfl
    obtain ⟨st', m', hm, hread, hcontent, hreads, hinLine⟩ :=
      blockFrom_literalChars .keep hparent hpos hprintable h (spaces k ++ tail)
    have hout : st'.inLine = false := by simpa [hc] using hinLine
    have hresult : st'.finish .keep = front ++ [c] :=
      hcontent.trans (by rw [hempty, List.nil_append])
    rw [hstart] at hm hread
    rw [hend, List.nil_append, List.nil_append, hread,
      blockFrom_end .keep hout hreads.indent_eq (hreads.column hout) hk htail, hresult, hm,
      Mark.after_append]

end Whole

/-- A text that is not empty is read back from its literal block, up to a line that starts left of the
margin. -/
theorem blockScalar_literal {cs : List Char} (hprintable : ∀ c ∈ cs, isPrintable c = true)
    (hne : cs ≠ []) {indent k : Nat} (hk : k < indent + 2) {tail : List Char}
    (htail : StartsLine k tail) (m : Mark) :
    ∃ m', m' = m.after (literalHints cs ++ '\n' ::
        (literalChars (indent + 2) true cs ++ (lastLineEnd cs ++ spaces k))) ∧
      blockScalar false indent (placed m (literalHints cs ++ '\n' ::
          (literalChars (indent + 2) true cs ++ (lastLineEnd cs ++ (spaces k ++ tail))))) =
        .ok (cs, placed m' tail) := by
  obtain ⟨chomping, hhints, hchomped⟩ := literalHints_eq hne
  refine ⟨_, rfl, ?_⟩
  rw [hhints, blockScalar_header]
  have hparent : ((indent : Int) + 1).toNat ≤ indent + 2 := by omega
  have hcolumn : (m.after (headerChars (showsMargin cs) chomping ++ ['\n'])).column = 0 := by
    rw [Mark.after_append, Mark.after_cons, Mark.behind_of_break isBreak_newline]
    rfl
  rw [blockFrom_literal hparent (by omega) hk htail rfl rfl hprintable hchomped]
  · rw [← Mark.after_append]
    simp
  · refine ⟨fun h => absurd h Bool.false_ne_true, fun h => absurd h Bool.false_ne_true,
      fun _ => hcolumn, ?_⟩
    cases hshown : showsMargin cs with
    | false => exact .inl rfl
    | true =>
      cases cs with
      | nil => exact absurd rfl hne
      | cons c cs =>
        refine .inr ⟨rfl, rfl, c, rfl, ?_⟩
        simpa [showsMargin, isSpace] using hshown

end ColumnAudit.Yaml
