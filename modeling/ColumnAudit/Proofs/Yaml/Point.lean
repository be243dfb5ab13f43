import ColumnAudit.Proofs.Yaml.TokenState

/-! # Points in a text of block collections

While a text of block collections is read, the state between two tokens is given by what has not been read,
the columns of the open collections and the kinds of the tokens so far: a `Point`. A point leads to another
one (`Leads`) if a reader that is at the first has the same tokens before it as one at the second.

Blanks, line ends and the marks of entries lead from point to point. A collection may be closed as soon as
what comes next is known to stand left of it (`leads_close`); the reader does that when it reads the next
token. A value has been passed once a line end is next or lies behind (`leads_passed`).
-/

namespace ColumnAudit.Yaml
open TokenState
set_option autoImplicit false

/-- What the next tokens depend on. -/
structure Point where
  /-- The column of the innermost block collection, −1 if none is open. -/
  indent : Int
  /-- The columns of the block collections around it. -/
  outer : List Int
  /-- Whether a key may start here. -/
  allowed : Bool
  /-- The tokens so far. -/
  kinds : List TokenKind
  /-- The column that has been reached. -/
  column : Nat
  /-- What has not been read yet. -/
  text : List Char

/-- A state at a point: no flow collection is open, and no token may turn out to be a key. -/
structure Point.Holds (p : Point) (st : TokenState) (m : Mark) : Prop where
  column : m.column = p.column
  rest : st.rest = placed m p.text
  stop : st.stop = m.after p.text
  indent : st.indent = p.indent
  outer : st.outerIndents = p.outer
  key : st.key = none
  flow : st.outerKeys = []
  allowed : st.keyAllowed = p.allowed
  kinds : st.tokens.toList.map Token.kind = p.kinds

/-- Whoever is at the first point has the same tokens before him as someone at the second. -/
def Leads (p q : Point) : Prop :=
  ∀ st m, p.Holds st m → ∃ st' m', q.Holds st' m' ∧ st.Reaches st'

theorem Leads.trans {p q r : Point} (h : Leads p q) (h' : Leads q r) : Leads p r := by
  intro st m hp
  obtain ⟨st1, m1, hq, hreach⟩ := h st m hp
  obtain ⟨st2, m2, hr, hreach'⟩ := h' st1 m1 hq
  exact ⟨st2, m2, hr, hreach.trans hreach'⟩

theorem Leads.refl (p : Point) : Leads p p := fun st m hp => ⟨st, m, hp, fun _ h => h⟩

/-! ## States at a point -/

namespace Point.Holds
variable {p : Point} {st : TokenState} {m : Mark} (h : p.Holds st m)
include h

theorem not_inFlow : st.inFlow = false := by
  rw [inFlow, h.flow]
  rfl

theorem mark_eq : st.mark = m := mark_of_rest h.rest h.stop

/-- In front of a token only collections to its right end. -/
theorem advance_eq (hstarts : ∀ c ∈ p.text.head?, StartsToken c) :
    st.advance = .ok (st.closeBlocks p.column m) := by
  have hskip := skipBetween_token st.inFlow st.keyAllowed m hstarts
  rw [← h.rest] at hskip
  have hdrop := dropStaleKey_of_none h.key
  have hmark := h.mark_eq
  rw [advance, hskip]
  simp only [hdrop, bind, Except.bind, hmark, h.column]
  rfl

theorem closeBlocks_eq (column : Int) (mark : Mark) : st.closeBlocks column mark =
    { st with
      tokens := st.tokens ++ Array.replicate (closing column p.indent p.outer).1 ⟨.blockEnd, mark⟩
      indent := (closing column p.indent p.outer).2.1
      outerIndents := (closing column p.indent p.outer).2.2 } := by
  rw [closeBlocks, h.not_inFlow, h.indent, h.outer]
  rfl

/-- In front of a token of the innermost collection nothing ends. -/
theorem advance_self (hstarts : ∀ c ∈ p.text.head?, StartsToken c) (hcolumn : p.indent ≤ p.column) :
    st.advance = .ok st := by
  rw [← h.indent, ← h.column] at hcolumn
  refine advance_of_token h.rest h.mark_eq hstarts (fun key hkey => ?_) hcolumn
  rw [h.key] at hkey
  cases hkey

end Point.Holds

section Leads
variable {indent : Int} {outer outer' : List Int} {allowed : Bool} {kinds kinds' : List TokenKind}
  {column : Nat} {text : List Char}

/-! ## Blanks and line ends -/

theorem leads_space : Leads ⟨indent, outer, allowed, kinds, column, ' ' :: text⟩
    ⟨indent, outer, allowed, kinds, column + 1, text⟩ := by
  intro st m h
  have hnext : m.behind ' ' = m.next := Mark.behind_of_not_break isBreak_space
  refine ⟨{ st with rest := placed m.next text }, m.next, ?_, ?_⟩
  · exact { h with
      column := congrArg (· + 1) h.column
      rest := rfl
      stop := by rw [h.stop, Mark.after_cons, hnext] }
  · refine reaches_of_advance ?_ ?_
    · have hskip := skipBetween_space st.inFlow st.keyAllowed m text
      rw [← h.rest] at hskip
      exact advance_congr hskip
    · rw [h.rest, length_placed, length_placed]
      exact Nat.le_succ _

theorem leads_newline : Leads ⟨indent, outer, allowed, kinds, column, '\n' :: text⟩
    ⟨indent, outer, true, kinds, 0, text⟩ := by
  intro st m h
  have hnext : m.behind '\n' = m.nextLine 1 := Mark.behind_of_break isBreak_newline
  refine ⟨{ st with rest := placed (m.nextLine 1) text, keyAllowed := true }, m.nextLine 1, ?_, ?_⟩
  · exact { h with
      column := rfl
      rest := rfl
      stop := by rw [h.stop, Mark.after_cons, hnext]
      allowed := rfl }
  · refine reaches_of_advance ?_ ?_
    · have hskip : skipBetween st.inFlow false st.keyAllowed st.rest =
          skipBetween st.inFlow false true (placed (m.nextLine 1) text) := by
        rw [h.not_inFlow, h.rest]
        exact skipBetween_newline ..
      exact advance_congr hskip
    · rw [h.rest, length_placed, length_placed]
      exact Nat.le_succ _

theorem leads_spaces (k : Nat) : Leads ⟨indent, outer, allowed, kinds, column, spaces k ++ text⟩
    ⟨indent, outer, allowed, kinds, column + k, text⟩ := by
  induction k generalizing column with
  | zero => exact Leads.refl _
  | succ k ih =>
    have hcolumn : column + (k + 1) = column + 1 + k := by omega
    rw [hcolumn]
    exact leads_space.trans ih

theorem leads_line (k : Nat) : Leads ⟨indent, outer, allowed, kinds, column, '\n' :: (spaces k ++ text)⟩
    ⟨indent, outer, true, kinds, k, text⟩ := by
  have hspaces : Leads ⟨indent, outer, true, kinds, 0, spaces k ++ text⟩
    ⟨indent, outer, true, kinds, 0 + k, text⟩ := leads_spaces k
  rw [Nat.zero_add] at hspaces
  exact leads_newline.trans hspaces

/-! ## Ends of collections -/

/-- A collection to the right of what comes next may be closed already. -/
theorem leads_close {next : Int} (hstarts : ∀ c ∈ text.head?, StartsToken c)
    (hcolumn : (column : Int) < indent) :
    Leads ⟨indent, next :: outer, allowed, kinds, column, text⟩
      ⟨next, outer, allowed, kinds ++ [.blockEnd], column, text⟩ := by
  intro st m h
  have hclosed : Point.Holds ⟨next, outer, allowed, kinds ++ [.blockEnd], column, text⟩
      { st with
        tokens := st.tokens.push ⟨.blockEnd, m⟩
        indent := next
        outerIndents := outer } m :=
    { h with
      indent := rfl
      outer := rfl
      kinds := by
        have hkinds := h.kinds
        simp [hkinds] }
  refine ⟨_, m, hclosed, reaches_of_advance ?_ (Nat.le_refl _)⟩
  -- The reader closes all that is to be closed in one go; with one of them closed already it has the
  -- others left.
  have htokens : ∀ n, st.tokens ++ Array.replicate (n + 1) ⟨.blockEnd, m⟩ =
      st.tokens.push ⟨.blockEnd, m⟩ ++ Array.replicate n ⟨.blockEnd, m⟩ := by
    intro n
    rw [← Array.toList_inj]
    simp [List.replicate_succ]
  rw [h.advance_eq hstarts, hclosed.advance_eq hstarts, h.closeBlocks_eq, hclosed.closeBlocks_eq,
    closing, if_pos hcolumn]
  simp only [htokens]

/-! ## Marks of entries -/

/-- Reading a token whose reader ends at another point. -/
theorem leads_of_token {p q : Point} {c : Char} {cs : List Char} (htext : p.text = c :: cs)
    (hstarts : StartsToken c) (hcolumn : p.indent ≤ p.column)
    (h : ∀ st m, p.Holds st m → ∃ st' m', st.readToken ⟨c, m⟩ (placed (m.behind c) cs) = .ok st' ∧
      q.Holds st' m' ∧ st'.rest.length ≤ cs.length) : Leads p q := by
  intro st m hp
  obtain ⟨st', m', htoken, hq, hlength⟩ := h st m hp
  have hrest : st.rest = ⟨c, m⟩ :: placed (m.behind c) cs := by rw [hp.rest, htext, placed]
  have hadvance : st.advance = .ok st :=
    hp.advance_self (by simpa [htext] using hstarts) hcolumn
  refine ⟨st', m', hq, reaches_of_token hadvance hrest htoken ?_⟩
  rw [hrest, List.length_cons, length_placed]
  omega

/-- An entry at a column is the first one of a collection, which starts with a token, or a further one of
the collection that is open. -/
inductive Opens (start : TokenKind) (column : Nat) :
    Int → List Int → List TokenKind → List Int → List TokenKind → Prop
  | first (indent : Int) (outer : List Int) (kinds : List TokenKind) (h : indent < column) :
    Opens start column indent outer kinds (indent :: outer) (kinds ++ [start])
  | further (outer : List Int) (kinds : List TokenKind) :
    Opens start column column outer kinds outer kinds

variable {start : TokenKind}

theorem Opens.indent_le (h : Opens start column indent outer kinds outer' kinds') :
    indent ≤ column := by
  cases h with
  | first _ _ _ h => exact Int.le_of_lt h
  | further => exact Int.le_refl _

theorem Opens.holds (hopens : Opens start column indent outer kinds outer' kinds')
    {st : TokenState} {m : Mark} (h : Point.Holds ⟨indent, outer, allowed, kinds, column, text⟩ st m) :
    Point.Holds ⟨column, outer', allowed, kinds', column, text⟩
      (st.openBlock start st.tokens.size m) m := by
  have hflow : ¬ st.inFlow = true := by
    rw [h.not_inFlow]
    decide
  have hcolumn : (m.column : Int) = column := congrArg _ h.column
  have hindent := h.indent
  cases hopens with
  | first _ _ _ hlt =>
    have hopen : ¬ (st.inFlow = true ∨ (m.column : Int) ≤ st.indent) := by
      rw [hcolumn, hindent]
      exact not_or.2 ⟨hflow, Int.not_le.2 hlt⟩
    rw [openBlock, if_neg hopen]
    exact { h with
      indent := hcolumn
      outer := congr (congrArg List.cons hindent) h.outer
      kinds := by
        have hkinds := h.kinds
        simp [Array.insertIdxIfInBounds, hkinds] }
  | further =>
    have hopen : st.inFlow = true ∨ (m.column : Int) ≤ st.indent := by
      rw [hcolumn, hindent]
      exact .inr (Int.le_refl _)
    rw [openBlock, if_pos hopen]
    exact h

theorem isTripled_of_ne {c mark : Char} (h : c ≠ mark) (m : Mark) (ss : List Spot) :
    isTripled mark (⟨c, m⟩ :: ss) = false := by
  have hc : (c == mark) = false := beq_eq_false_iff_ne.2 h
  match ss with
  | [] => rfl
  | [_] => rfl
  | _ :: _ :: _ => simp [isTripled, hc]

theorem isTripled_of_next {mark : Char} (c : Char) (m : Mark) {ss : List Spot}
    (h : nextChar ss ≠ some mark) : isTripled mark (⟨c, m⟩ :: ss) = false := by
  match ss with
  | [] => rfl
  | [_] => rfl
  | s :: _ :: _ =>
    have hs : (s.char == mark) = false := beq_eq_false_iff_ne.2 fun heq => h (congrArg some heq)
    simp [isTripled, hs]

theorem Point.Holds.add {c : Char} {st : TokenState} {m : Mark}
    (h : Point.Holds ⟨indent, outer, allowed, kinds, column, c :: text⟩ st m)
    (hbreak : isBreak c = false) (kind : TokenKind) (allowed' : Bool) :
    Point.Holds ⟨indent, outer, allowed', kinds ++ [kind], column + 1, text⟩
      (TokenState.add { st with keyAllowed := allowed' } kind m (placed m.next text)) m.next :=
  { h with
    column := congrArg (· + 1) h.column
    rest := rfl
    stop := by
      have hstop := h.stop
      rw [Mark.after_cons, Mark.behind_of_not_break hbreak] at hstop
      exact hstop
    allowed := rfl
    kinds := by
      have hkinds := h.kinds
      simp [TokenState.add, hkinds] }

/-- The mark of an entry, a visible character of its own. -/
theorem leads_mark {c : Char} {kind : TokenKind} (hstarts : StartsToken c)
    (hopens : Opens start column indent outer kinds outer' kinds')
    (hread : ∀ st m, Point.Holds ⟨indent, outer, true, kinds, column, c :: text⟩ st m →
      st.readToken ⟨c, m⟩ (placed m.next text) =
        .ok (TokenState.add { st.openBlock start st.tokens.size m with keyAllowed := true } kind m
          (placed m.next text))) :
    Leads ⟨indent, outer, true, kinds, column, c :: text⟩
      ⟨column, outer', true, kinds' ++ [kind], column + 1, text⟩ := by
  refine leads_of_token rfl hstarts hopens.indent_le fun st m h => ?_
  rw [Mark.behind_of_not_break hstarts.not_break]
  refine ⟨_, _, hread st m h, (hopens.holds h).add hstarts.not_break kind true, ?_⟩
  exact Nat.le_of_eq (length_placed _ _)

theorem leads_dash (hopens : Opens .blockSequenceStart column indent outer kinds outer' kinds')
    (hends : endsWord text.head? = true) :
    Leads ⟨indent, outer, true, kinds, column, '-' :: text⟩
      ⟨column, outer', true, kinds' ++ [.blockEntry], column + 1, text⟩ := by
  refine leads_mark (by constructor <;> decide) hopens fun st m h => ?_
  have htripled : isTripled '-' (⟨'-', m⟩ :: placed m.next text) = false := by
    refine isTripled_of_next _ _ ?_
    rw [nextChar_placed]
    intro hdash
    rw [hdash] at hends
    exact absurd hends (by decide)
  have hallowed := h.allowed
  have hdrop := dropKey_of_none (hopens.holds h).key
  have hreader : st.readToken ⟨'-', m⟩ (placed m.next text) =
      st.readBlockEntry ⟨'-', m⟩ (placed m.next text) := by
    simp [readToken, htripled, isTripled_of_ne, nextChar_placed, hends]
  rw [hreader, readBlockEntry]
  simp [hallowed, hdrop, bind, Except.bind, pure, Except.pure]

theorem leads_question (hopens : Opens .blockMappingStart column indent outer kinds outer' kinds')
    (hends : endsWord text.head? = true) :
    Leads ⟨indent, outer, true, kinds, column, '?' :: text⟩
      ⟨column, outer', true, kinds' ++ [.key], column + 1, text⟩ := by
  refine leads_mark (by constructor <;> decide) hopens fun st m h => ?_
  have hallowed := h.allowed
  have hopen := hopens.holds h
  have hdrop := dropKey_of_none hopen.key
  have hflow := hopen.not_inFlow
  have hreader : st.readToken ⟨'?', m⟩ (placed m.next text) =
      st.readKey ⟨'?', m⟩ (placed m.next text) := by
    simp [readToken, isTripled_of_ne, nextChar_placed, hends]
  rw [hreader, readKey]
  simp [hallowed, hdrop, hflow, bind, Except.bind, pure, Except.pure]

theorem leads_colon (hends : endsWord text.head? = true) :
    Leads ⟨column, outer, true, kinds, column, ':' :: text⟩
      ⟨column, outer, true, kinds ++ [.value], column + 1, text⟩ := by
  have hopens : Opens .blockMappingStart column column outer kinds outer kinds := .further outer kinds
  refine leads_mark (by constructor <;> decide) hopens fun st m h => ?_
  have hallowed := h.allowed
  have hflow := (hopens.holds h).not_inFlow
  have hkey := h.key
  have hreader : st.readToken ⟨':', m⟩ (placed m.next text) =
      st.readValue ⟨':', m⟩ (placed m.next text) := by
    simp [readToken, isTripled_of_ne, nextChar_placed, hends]
  rw [hreader, readValue, hkey]
  simp [hallowed, hflow, pure, Except.pure]

end Leads

/-! ## Behind values -/

/-- A state behind the line of a value: what is left starts at a point, and a token that might have been a
key stands on an earlier line. -/
structure Point.Passed (p : Point) (st : TokenState) (m : Mark) : Prop where
  column : m.column = p.column
  skips : skipBetween false false st.keyAllowed st.rest = (true, placed m p.text)
  length : p.text.length ≤ st.rest.length
  stop : st.stop = m.after p.text
  indent : st.indent = p.indent
  outer : st.outerIndents = p.outer
  key : ∀ key ∈ st.key, key.required = false ∧ key.mark.line < m.line
  flow : st.outerKeys = []
  allowed : p.allowed = true
  kinds : st.tokens.toList.map Token.kind = p.kinds

theorem Point.Passed.settles {p : Point} {st : TokenState} {m : Mark} (h : p.Passed st m)
    (hstarts : ∀ c ∈ p.text.head?, StartsToken c) : ∃ st', p.Holds st' m ∧ st.Reaches st' := by
  have hstop := h.stop
  refine ⟨{ st with rest := placed m p.text, key := none, keyAllowed := true }, ?_, ?_⟩
  · exact { h with
      rest := rfl
      key := rfl
      allowed := h.allowed.symm }
  have hinFlow : ∀ key, ({ st with rest := placed m p.text, key := key, keyAllowed := true } :
      TokenState).inFlow = false := fun _ => by
    rw [inFlow, h.flow]
    rfl
  have hnow : st.inFlow = false := by
    rw [inFlow, h.flow]
    rfl
  have hmark : ({ st with rest := placed m p.text, keyAllowed := true } : TokenState).mark = m :=
    mark_of_rest rfl hstop
  have hdrop : dropStaleKey { st with rest := placed m p.text, keyAllowed := true } =
      .ok { st with rest := placed m p.text, key := none, keyAllowed := true } :=
    dropStaleKey_of_line fun key hkey => by
      rw [hmark]
      exact h.key key hkey
  have hstable := skipBetween_token false true m hstarts
  refine reaches_of_advance ?_ (by simpa only [length_placed] using h.length)
  unfold advance
  simp only [hnow, hinFlow, h.skips, hstable, hdrop]
  rw [dropStaleKey_of_none rfl]

theorem leads_passed {p q : Point} (hstarts : ∀ c ∈ q.text.head?, StartsToken c)
    (h : ∀ st m, p.Holds st m → ∃ st' m', q.Passed st' m' ∧ st.Reaches st') : Leads p q := by
  intro st m hp
  obtain ⟨st1, m', hpassed, hreach⟩ := h st m hp
  obtain ⟨st2, hq, hsettled⟩ := hpassed.settles hstarts
  exact ⟨st2, m', hq, hreach.trans hsettled⟩

end ColumnAudit.Yaml
