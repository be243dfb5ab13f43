import ColumnAudit.Proofs.Yaml.LiteralBlock
import ColumnAudit.Proofs.Yaml.QuotedScalar
import ColumnAudit.Yaml.TokenState

/-! # Readers with the same tokens before them

`TokenState.Reaches` relates two states if the text has the tokens from the first one that it has from the
second. It is shown step by step: a state reaches the one behind what is skipped in front of the next token,
and the one behind that token.
-/

namespace ColumnAudit.Yaml
set_option autoImplicit false

namespace TokenState
variable {st st' : TokenState}

/-! ## Steps -/

/-- The tokens of a text, for any fuel that exceeds what has not been read. -/
def Gives (st : TokenState) (toks : Array Token) : Prop :=
  ∀ fuel, st.rest.length < fuel → st.readAll fuel = .ok toks

/-- A state all of whose tokens are given by another one. -/
def Reaches (st st' : TokenState) : Prop := ∀ toks, st'.Gives toks → st.Gives toks

theorem Reaches.trans {st'' : TokenState} (h : Reaches st st') (h' : Reaches st' st'') :
    Reaches st st'' := fun toks htoks => h toks (h' toks htoks)

/-- States that come to the same in front of the next token. -/
theorem reaches_of_advance (h : st.advance = st'.advance)
    (hlength : st'.rest.length ≤ st.rest.length) : Reaches st st' := by
  intro toks htoks fuel hfuel
  cases fuel with
  | zero => exact absurd hfuel (Nat.not_lt_zero _)
  | succ fuel =>
    have hread := htoks (fuel + 1) (by omega)
    rw [readAll] at hread ⊢
    rw [h]
    exact hread

theorem reaches_of_token {st1 : TokenState} {s : Spot} {ss : List Spot}
    (hadvance : st.advance = .ok st1) (hrest : st1.rest = s :: ss)
    (htoken : st1.readToken s ss = .ok st') (hlength : st'.rest.length < st.rest.length) :
    Reaches st st' := by
  intro toks htoks fuel hfuel
  cases fuel with
  | zero => exact absurd hfuel (Nat.not_lt_zero _)
  | succ fuel =>
    have hread := htoks fuel (by omega)
    rw [readAll, hadvance]
    simp only [bind, Except.bind, hrest, htoken]
    exact hread

theorem gives_of_finish {st1 : TokenState} {toks : Array Token} (hadvance : st.advance = .ok st1)
    (hrest : st1.rest = []) (hfinish : st1.finish = .ok toks) : st.Gives toks := by
  intro fuel hfuel
  cases fuel with
  | zero => exact absurd hfuel (Nat.not_lt_zero _)
  | succ fuel =>
    rw [readAll, hadvance]
    simp only [bind, Except.bind, hrest, hfinish]

/-! ## In front of a token -/

theorem skipBetween_space (inFlow keyAllowed : Bool) (m : Mark) (cs : List Char) :
    skipBetween inFlow false keyAllowed (placed m (' ' :: cs)) =
      skipBetween inFlow false keyAllowed (placed m.next cs) := by
  rw [placed, skipBetween, Mark.behind_of_not_break isBreak_space]
  simp [isBreak_space]

theorem skipBetween_newline (keyAllowed : Bool) (m : Mark) (cs : List Char) :
    skipBetween false false keyAllowed (placed m ('\n' :: cs)) =
      skipBetween false false true (placed (m.nextLine 1) cs) := by
  rw [placed, skipBetween, Mark.behind_of_break isBreak_newline]
  simp [isBreak_newline]

theorem skipBetween_spaces (inFlow keyAllowed : Bool) (m : Mark) (k : Nat) (cs : List Char) :
    skipBetween inFlow false keyAllowed (placed m (spaces k ++ cs)) =
      skipBetween inFlow false keyAllowed (placed (m.after (spaces k)) cs) := by
  induction k generalizing m with
  | zero => rfl
  | succ k ih =>
    have hspaces : spaces (k + 1) = ' ' :: spaces k := rfl
    rw [hspaces, List.cons_append, skipBetween_space, ih, Mark.after_cons,
      Mark.behind_of_not_break isBreak_space]

theorem skipBetween_token (inFlow keyAllowed : Bool) (m : Mark) {cs : List Char}
    (h : ∀ c ∈ cs.head?, StartsToken c) :
    skipBetween inFlow false keyAllowed (placed m cs) = (keyAllowed, placed m cs) := by
  cases cs with
  | nil => rfl
  | cons c cs =>
    have hc := h c rfl
    have hmark : (c == '\ufeff') = false := by
      rw [beq_eq_false_iff_ne]
      rintro rfl
      exact absurd hc.printable (by decide)
    have hgap := hc.not_gap
    simp only [isGap, Bool.or_eq_false_iff] at hgap
    have hcomment : (c == '#') = false := beq_eq_false_iff_ne.2 hc.not_comment
    rw [placed, skipBetween]
    simp only [hc.not_break, hgap, hmark, hcomment, Bool.false_and, Bool.or_self,
      Bool.false_eq_true, if_false]

theorem mark_of_rest {m : Mark} {cs : List Char} (hrest : st.rest = placed m cs)
    (hstop : st.stop = m.after cs) : st.mark = m := by
  unfold mark
  rw [hrest]
  cases cs with
  | nil => exact hstop
  | cons c cs => rfl

/-- States that only differ in what they skip in front of the next token. -/
theorem advance_congr {rest rest' : List Spot} {allowed allowed' : Bool}
    (h : skipBetween st.inFlow false allowed rest = skipBetween st.inFlow false allowed' rest') :
    { st with rest := rest, keyAllowed := allowed }.advance =
      { st with rest := rest', keyAllowed := allowed' }.advance := by
  have hflow : ∀ (r : List Spot) (a : Bool),
      ({ st with rest := r, keyAllowed := a } : TokenState).inFlow = st.inFlow := fun _ _ => rfl
  unfold advance
  simp only [hflow, h]

theorem dropKey_of_none (h : st.key = none) : st.dropKey = .ok st := by
  rw [dropKey, h]

theorem dropStaleKey_of_none (h : st.key = none) : st.dropStaleKey = .ok st := by
  rw [dropStaleKey, h]

/-- A token that need not be a key is none any more on a later line. -/
theorem dropStaleKey_of_line
    (h : ∀ key ∈ st.key, key.required = false ∧ key.mark.line < st.mark.line) :
    st.dropStaleKey = .ok { st with key := none } := by
  cases hkey : st.key with
  | none =>
    rw [dropStaleKey_of_none hkey]
    obtain ⟨rest, stop, tokens, indent, outerIndents, key, outerKeys, keyAllowed⟩ := st
    obtain rfl := hkey
    rfl
  | some key =>
    obtain ⟨hrequired, hline⟩ := h key hkey
    rw [dropStaleKey, hkey]
    simp only [if_pos (Or.inl hline)]
    rw [dropKey, hkey]
    simp only [hrequired, Bool.false_eq_true, if_false]

/-- A token that may be a key still may on the same line, if it is near enough. -/
theorem dropStaleKey_of_near (h : ∀ key ∈ st.key, st.mark.line ≤ key.mark.line ∧
    st.mark.index ≤ key.mark.index + 1024) : st.dropStaleKey = .ok st := by
  cases hkey : st.key with
  | none => exact dropStaleKey_of_none hkey
  | some key =>
    obtain ⟨hline, hindex⟩ := h key hkey
    rw [dropStaleKey, hkey]
    have hnear : ¬ (key.mark.line < st.mark.line ∨ key.mark.index + 1024 < st.mark.index) := by omega
    simp only [if_neg hnear]

theorem closing_of_le {column indent : Int} (h : indent ≤ column) (outer : List Int) :
    closing column indent outer = (0, indent, outer) := by
  cases outer with
  | nil => rfl
  | cons next outer => rw [closing, if_neg (Int.not_lt.2 h)]

/-- To the right of all collections none ends. -/
theorem closeBlocks_of_le {column : Int} (h : st.indent ≤ column) (mark : Mark) :
    st.closeBlocks column mark = st := by
  rw [closeBlocks, closing_of_le h]
  split
  · rfl
  · simp

/-- In front of a token that closes nothing and that does not stand too far behind a possible key, nothing
happens. -/
theorem advance_of_token {m : Mark} {cs : List Char} (hrest : st.rest = placed m cs)
    (hmark : st.mark = m) (hstarts : ∀ c ∈ cs.head?, StartsToken c)
    (hkey : ∀ key ∈ st.key, m.line ≤ key.mark.line ∧ m.index ≤ key.mark.index + 1024)
    (hindent : st.indent ≤ m.column) : st.advance = .ok st := by
  have hskip := skipBetween_token st.inFlow st.keyAllowed m hstarts
  rw [← hrest] at hskip
  have hdrop : st.dropStaleKey = .ok st := dropStaleKey_of_near (by rw [hmark]; exact hkey)
  have hclose := closeBlocks_of_le hindent m
  rw [advance, hskip]
  simp only [hdrop, bind, Except.bind, hmark, hclose]
  rfl

end TokenState
end ColumnAudit.Yaml
