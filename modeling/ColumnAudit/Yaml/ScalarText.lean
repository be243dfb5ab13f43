import ColumnAudit.Yaml.Token

/-! # The text of scalars

How the content of a scalar follows from its spots, for each way of writing one.

* Plain and quoted scalars run over several lines; the gap between two stretches of text is folded
  (`Gap.text`): a single line end is a space, and of several all but the first are kept.
* Quoted scalars end at their quote; in double quotes a backslash escapes.
* Block scalars take whole lines with a common indentation, kept as they are or folded, and treat
  the line ends behind the last line as their header says.
-/

namespace ColumnAudit.Yaml
set_option autoImplicit false

/-! ## Gaps -/

/-- What stands between two stretches of text: the blanks on the same line or, once there is a line
end, the first line end and the others. An escaped line end breaks the line without being one. -/
structure Gap where
  blanks : List Char
  broken : Bool
  first : Option Char
  others : List Char
deriving DecidableEq, Repr

namespace Gap

/-- No gap. -/
def none : Gap := ⟨[], false, .none, []⟩

/-- The gap that an escaped line end opens. -/
def escaped : Gap := ⟨[], true, .none, []⟩

/-- A gap with one more blank or line end. -/
def add (g : Gap) (c : Char) : Gap :=
  if isBreak c then
    if g.broken then { g with others := g.others ++ [c] } else ⟨[], true, some c, []⟩
  else if g.broken then g
  else { g with blanks := g.blanks ++ [c] }

/-- What a gap is in the content of a scalar. -/
def text (g : Gap) : List Char :=
  if g.broken then
    match g.first with
    | some '\n' => if g.others.isEmpty then [' '] else g.others
    | some c => c :: g.others
    | .none => g.others
  else g.blanks

end Gap

/-! ## Plain scalars -/

/-- The content of a plain scalar, whether a line ended behind it, and the spots that follow it and
its gap. -/
structure PlainScan where
  text : List Char
  broken : Bool
  rest : List Spot

/-- Reads on in a plain scalar. `indent` is the column from which its lines have to start in a block
context, `gap` the gap just passed, if any, and `done` the content so far in reverse. -/
def plainFrom (inFlow : Bool) (indent : Int) (gap : Option Gap) (done : List Char) :
    List Spot → Except SyntaxError PlainScan
  | [] => .ok ⟨done.reverse, gap.any Gap.broken, []⟩
  | s :: ss =>
    let stop : PlainScan := ⟨done.reverse, gap.any Gap.broken, s :: ss⟩
    if isGap s.char || isBreak s.char then
      let g := gap.getD .none
      if s.char = '\t' ∧ g.broken ∧ s.mark.column < indent then .error ⟨.tabInIndentation, s.mark⟩
      else plainFrom inFlow indent (some (g.add s.char)) done ss
    else if gap.isSome &&
        (s.char == '#' || isDocumentMark (s :: ss) || (!inFlow && s.mark.column < indent)) then
      .ok stop
    else if inFlow && s.char == ':' && (nextChar ss).any fun c => isFlowIndicator c || c == '?' then
      .error ⟨.ambiguousColon, s.mark⟩
    else if (s.char == ':' && endsWord (nextChar ss)) || (inFlow && isFlowIndicator s.char) then
      .ok stop
    else plainFrom inFlow indent .none (s.char :: ((gap.getD .none).text.reverse ++ done)) ss

/-! ## Quoted scalars -/

/-- Where a reader of a quoted scalar is. -/
inductive QuoteState where
  /-- In the text. -/
  | text
  /-- Behind a backslash. -/
  | escape
  /-- In a code point, with some digits to come. -/
  | code (left value : Nat)
  /-- Behind a single quote, which ends the scalar unless another one follows. -/
  | closing
deriving DecidableEq, Repr

/-- What a character stands for behind a backslash. -/
def escapeValue? : Char → Option Char
  | '0' => some '\x00'
  | 'a' => some '\x07'
  | 'b' => some '\x08'
  | 't' | '\t' => some '\t'
  | 'n' => some '\n'
  | 'v' => some '\x0b'
  | 'f' => some '\x0c'
  | 'r' => some '\r'
  | 'e' => some '\x1b'
  | ' ' => some ' '
  | '\"' => some '\"'
  | '/' => some '/'
  | '\\' => some '\\'
  | 'N' => some '\u0085'
  | '_' => some '\u00a0'
  | 'L' => some '\u2028'
  | 'P' => some '\u2029'
  | _ => none

/-- How many hexadecimal digits follow a letter behind a backslash. -/
def codeLength? : Char → Option Nat
  | 'x' => some 2
  | 'u' => some 4
  | 'U' => some 8
  | _ => none

/-- Reads on in a quoted scalar up to and with its closing quote. -/
def quotedFrom (double : Bool) (start : Mark) (state : QuoteState) (gap : Option Gap)
    (done : List Char) : List Spot → Except SyntaxError (List Char × List Spot)
  | [] => if state = .closing then .ok (done.reverse, []) else .error ⟨.unclosedQuote, start⟩
  | s :: ss =>
    match state with
    | .closing =>
      if s.char = '\x27' then quotedFrom double start .text .none ('\x27' :: done) ss
      else .ok (done.reverse, s :: ss)
    | .escape =>
      if isBreak s.char then quotedFrom double start .text (some .escaped) done ss
      else match escapeValue? s.char, codeLength? s.char with
        | some c, _ => quotedFrom double start .text .none (c :: done) ss
        | none, some n => quotedFrom double start (.code n 0) .none done ss
        | none, none => .error ⟨.badEscape, s.mark⟩
    | .code left value =>
      match hexValue? s.char with
      | none => .error ⟨.badEscape, s.mark⟩
      | some d =>
        let value := 16 * value + d
        if left > 1 then quotedFrom double start (.code (left - 1) value) .none done ss
        else if value.isValidChar then
          quotedFrom double start .text .none (Char.ofNat value :: done) ss
        else .error ⟨.badEscape, s.mark⟩
    | .text =>
      if isGap s.char || isBreak s.char then
        quotedFrom double start .text (some ((gap.getD .none).add s.char)) done ss
      else if gap.isSome && isDocumentMark (s :: ss) then .error ⟨.documentMarkInScalar, s.mark⟩
      else
        let done := (gap.getD .none).text.reverse ++ done
        if double then
          if s.char = '\"' then .ok (done.reverse, ss)
          else if s.char = '\\' then quotedFrom double start .escape .none done ss
          else quotedFrom double start .text .none (s.char :: done) ss
        else if s.char = '\x27' then quotedFrom double start .closing .none done ss
        else quotedFrom double start .text .none (s.char :: done) ss

/-! ## Block scalars -/

/-- What becomes of the line ends behind the last line of a block scalar. -/
inductive Chomping where
  /-- None is kept. -/
  | strip
  /-- The first one is kept. -/
  | clip
  /-- All are kept. -/
  | keep
deriving DecidableEq, Repr

/-- What the header of a block scalar says. -/
structure BlockHeader where
  chomping : Chomping
  /-- The indentation relative to the surrounding block, if given. -/
  increment : Option Nat
deriving DecidableEq, Repr

/-- The chomping that a character asks for. -/
def chompingOf? : Char → Option Chomping
  | '+' => some .keep
  | '-' => some .strip
  | _ => none

/-- The header behind the indicator of a block scalar, and the spots behind it. -/
def blockHeader (spots : List Spot) : Except SyntaxError (BlockHeader × List Spot) :=
  match spots with
  | [] => .ok (⟨.clip, none⟩, [])
  | s :: ss =>
    match chompingOf? s.char with
    | some chomping =>
      match ss with
      | d :: rest =>
        if d.char = '0' then .error ⟨.badBlockHeader, d.mark⟩
        else if d.char.isDigit then .ok (⟨chomping, hexValue? d.char⟩, rest)
        else .ok (⟨chomping, none⟩, ss)
      | [] => .ok (⟨chomping, none⟩, ss)
    | none =>
      if s.char = '0' then .error ⟨.badBlockHeader, s.mark⟩
      else if s.char.isDigit then
        match ss with
        | c :: rest =>
          match chompingOf? c.char with
          | some chomping => .ok (⟨chomping, hexValue? s.char⟩, rest)
          | none => .ok (⟨.clip, hexValue? s.char⟩, ss)
        | [] => .ok (⟨.clip, hexValue? s.char⟩, ss)
      else .ok (⟨.clip, none⟩, spots)

/-- The spots behind the line of a header, which may hold blanks and a comment only. -/
def behindHeader (spots : List Spot) : Except SyntaxError (List Spot) :=
  let trimmed := spots.dropWhile fun s => isGap s.char
  let tail := if nextChar trimmed = some '#' then trimmed.dropWhile fun s => !isBreak s.char
    else trimmed
  match tail with
  | [] => .ok []
  | s :: ss => if isBreak s.char then .ok ss else .error ⟨.badBlockHeader, s.mark⟩

/-- What is known about a block scalar while it is read. -/
structure BlockState where
  /-- The indentation of its lines, once known. -/
  indent : Option Nat
  /-- The largest indentation of the blank lines at its front. -/
  widest : Nat
  /-- The content so far, in reverse. -/
  done : List Char
  /-- The line end behind the last line. -/
  lineEnd : Option Char
  /-- The line ends of the blank lines behind the last line. -/
  blankLines : List Char
  /-- Whether the last line starts with a blank. -/
  startsBlank : Bool
  /-- Whether the reader is inside a line. -/
  inLine : Bool
deriving DecidableEq, Repr

namespace BlockState

/-- The content of a block scalar whose last line has been read. -/
def finish (st : BlockState) (chomping : Chomping) : List Char :=
  let kept := match chomping with
    | .strip => []
    | .clip => st.lineEnd.toList
    | .keep => st.lineEnd.toList ++ st.blankLines
  st.done.reverse ++ kept

/-- The state at the first character of a line: the line ends before it have been added to the
content, folded unless one of the lines on both sides starts with a blank. -/
def startLine (st : BlockState) (folded : Bool) (indent : Nat) (c : Char) : BlockState :=
  let ends :=
    if folded && st.lineEnd == some '\n' && !st.startsBlank && !isGap c then
      if st.blankLines.isEmpty then [' '] else st.blankLines
    else st.lineEnd.toList ++ st.blankLines
  { st with
    indent := some indent
    done := c :: (ends.reverse ++ st.done)
    lineEnd := none
    blankLines := []
    startsBlank := isGap c
    inLine := true }

end BlockState

/-- Reads on in a block scalar. `parent` is the indentation of the surrounding block, −1 outside
any. -/
def blockFrom (folded : Bool) (chomping : Chomping) (parent : Int) (st : BlockState) :
    List Spot → Except SyntaxError (List Char × List Spot)
  | [] => .ok (st.finish chomping, [])
  | s :: ss =>
    if st.inLine then
      if isBreak s.char then
        blockFrom folded chomping parent { st with lineEnd := some s.char, inLine := false } ss
      else blockFrom folded chomping parent { st with done := s.char :: st.done } ss
    else
      let inMargin := st.indent.all fun n => s.mark.column < n
      if inMargin && s.char == ' ' then blockFrom folded chomping parent st ss
      else if inMargin && s.char == '\t' then .error ⟨.tabInIndentation, s.mark⟩
      else
        let widest := max st.widest s.mark.column
        if isBreak s.char then
          blockFrom folded chomping parent
            { st with widest := widest, blankLines := st.blankLines ++ [s.char] } ss
        else
          let indent := st.indent.getD (max (max widest (parent + 1).toNat) 1)
          if s.mark.column = indent then
            blockFrom folded chomping parent (st.startLine folded indent s.char) ss
          else .ok (st.finish chomping, s :: ss)

/-- The content of a block scalar whose indicator has been passed, and the spots behind it. -/
def blockScalar (folded : Bool) (parent : Int) (spots : List Spot) :
    Except SyntaxError (List Char × List Spot) := do
  let (header, rest) ← blockHeader spots
  let rest ← behindHeader rest
  let indent := header.increment.map fun n => (max parent 0).toNat + n
  blockFrom folded header.chomping parent ⟨indent, 0, [], none, [], false, false⟩ rest

end ColumnAudit.Yaml
