import ColumnAudit.Yaml.TagText

/-! # From spots to tokens

Tokens are read from the front of a text, with three things kept in mind:

* the columns of the block collections that are open, so that a line further to the left closes
  them;
* how many flow collections are open, inside which columns say nothing;
* for each of these levels the token that turns out to be the key of a mapping if a `:` comes, so
  that the token that starts a key is put before it afterwards.

`tokens` gives the tokens of a whole text.
-/

namespace ColumnAudit.Yaml
set_option autoImplicit false

/-- A token that is the key of a mapping if a `:` follows on the same line. -/
structure PossibleKey where
  /-- Whether nothing but a key may stand there. -/
  required : Bool
  /-- How many tokens precede it. -/
  position : Nat
  mark : Mark
deriving DecidableEq, Repr

/-- The part of a text that has been read. -/
structure TokenState where
  /-- What has not been read yet. -/
  rest : List Spot
  /-- The position behind the text. -/
  stop : Mark
  tokens : Array Token
  /-- The column of the innermost block collection, −1 if none is open. -/
  indent : Int
  /-- The columns of the block collections around it. -/
  outerIndents : List Int
  key : Option PossibleKey
  /-- The possible keys in front of the flow collections that are open. -/
  outerKeys : List (Option PossibleKey)
  /-- Whether a key may start here. -/
  keyAllowed : Bool

namespace TokenState

/-- The front of a text. -/
def start (spots : List Spot) (stop : Mark) : TokenState :=
  ⟨spots, stop, #[], -1, [], none, [], true⟩

/-- Whether a flow collection is open. -/
def inFlow (st : TokenState) : Bool := !st.outerKeys.isEmpty

/-- Where the next character stands. -/
def mark (st : TokenState) : Mark := (st.rest.head?.map Spot.mark).getD st.stop

/-- The state behind one more token. -/
def add (st : TokenState) (kind : TokenKind) (mark : Mark) (rest : List Spot) : TokenState :=
  { st with tokens := st.tokens.push ⟨kind, mark⟩, rest := rest }

/-! ## Possible keys -/

/-- Gives up the possible key of this level. -/
def dropKey (st : TokenState) : Except SyntaxError TokenState :=
  match st.key with
  | some key =>
    if key.required then .error ⟨.missingColon, key.mark⟩ else .ok { st with key := none }
  | none => .ok st

/-- Gives up the possible key of this level if it is on an earlier line or too far behind. -/
def dropStaleKey (st : TokenState) : Except SyntaxError TokenState :=
  match st.key with
  | some key =>
    if key.mark.line < st.mark.line ∨ key.mark.index + 1024 < st.mark.index then st.dropKey
    else .ok st
  | none => .ok st

/-- Remembers that the next token may be a key. -/
def expectKey (st : TokenState) : Except SyntaxError TokenState :=
  if st.keyAllowed then do
    let required := !st.inFlow && st.indent == st.mark.column
    let st ← st.dropKey
    return { st with key := some ⟨required, st.tokens.size, st.mark⟩ }
  else .ok st

/-! ## Block collections -/

/-- How many of the open block collections lie to the right of a column, and the ones that do
not. -/
def closing (column : Int) : Int → List Int → Nat × Int × List Int
  | indent, [] => (0, indent, [])
  | indent, next :: outer =>
    if column < indent then
      let (count, kept) := closing column next outer
      (count + 1, kept)
    else (0, indent, next :: outer)

/-- Closes the block collections to the right of a column. -/
def closeBlocks (st : TokenState) (column : Int) (mark : Mark) : TokenState :=
  if st.inFlow then st
  else
    let (count, indent, outer) := closing column st.indent st.outerIndents
    { st with
      tokens := st.tokens ++ Array.replicate count ⟨.blockEnd, mark⟩
      indent := indent
      outerIndents := outer }

/-- Opens a block collection in front of a token, unless one is open at that column. -/
def openBlock (st : TokenState) (kind : TokenKind) (position : Nat) (mark : Mark) : TokenState :=
  if st.inFlow ∨ (mark.column : Int) ≤ st.indent then st
  else
    { st with
      tokens := st.tokens.insertIdxIfInBounds position ⟨kind, mark⟩
      indent := mark.column
      outerIndents := st.indent :: st.outerIndents }

/-! ## Gaps between tokens -/

/-- The spots behind gaps, comments and line ends, and whether a key may start there. A tab is no gap
where it could be taken for indentation. -/
def skipBetween (inFlow : Bool) (inComment keyAllowed : Bool) : List Spot → Bool × List Spot
  | [] => (keyAllowed, [])
  | s :: ss =>
    if isBreak s.char then skipBetween inFlow false (keyAllowed || !inFlow) ss
    else if inComment || s.char == ' ' || (s.char == '\t' && (inFlow || !keyAllowed)) ||
        (s.char == '\ufeff' && s.mark.column == 0) then
      skipBetween inFlow inComment keyAllowed ss
    else if s.char == '#' then skipBetween inFlow true keyAllowed ss
    else (keyAllowed, s :: ss)

/-- The state in front of the next token: what the position of that token ends has ended. -/
def advance (st : TokenState) : Except SyntaxError TokenState := do
  let (keyAllowed, rest) := skipBetween st.inFlow false st.keyAllowed st.rest
  let st ← { st with keyAllowed := keyAllowed, rest := rest }.dropStaleKey
  return st.closeBlocks st.mark.column st.mark

/-! ## Tokens one by one

The functions below read one token. Each takes the spot at its front and the spots behind that one.
-/

/-- Closes all block collections and gives up the possible key. -/
def leave (st : TokenState) (mark : Mark) : Except SyntaxError TokenState := do
  let st ← (st.closeBlocks (-1) mark).dropKey
  return { st with keyAllowed := false }

/-- Reads a directive. -/
def readDirective (st : TokenState) (s : Spot) (ss : List Spot) : Except SyntaxError TokenState := do
  let st ← st.leave s.mark
  let (kind, rest) ← directive ss s.mark
  return st.add kind s.mark rest

/-- Reads the mark of the start or the end of a document. -/
def readDocumentMark (st : TokenState) (kind : TokenKind) (s : Spot) (ss : List Spot) :
    Except SyntaxError TokenState := do
  let st ← st.leave s.mark
  return st.add kind s.mark (ss.drop 2)

/-- Reads the bracket that opens a flow collection. -/
def openFlow (st : TokenState) (kind : TokenKind) (s : Spot) (ss : List Spot) :
    Except SyntaxError TokenState := do
  let st ← st.expectKey
  let st := { st with key := none, outerKeys := st.key :: st.outerKeys, keyAllowed := true }
  return st.add kind s.mark ss

/-- Reads the bracket that closes a flow collection. -/
def closeFlow (st : TokenState) (kind : TokenKind) (s : Spot) (ss : List Spot) :
    Except SyntaxError TokenState := do
  let st ← st.dropKey
  let st := { st with keyAllowed := false }
  let st := match st.outerKeys with
    | key :: outer => { st with key := key, outerKeys := outer }
    | [] => st
  return st.add kind s.mark ss

/-- Reads the comma between entries. -/
def readFlowEntry (st : TokenState) (s : Spot) (ss : List Spot) : Except SyntaxError TokenState := do
  let st ← st.dropKey
  return { st with keyAllowed := true }.add .flowEntry s.mark ss

/-- Reads the dash before an entry. -/
def readBlockEntry (st : TokenState) (s : Spot) (ss : List Spot) :
    Except SyntaxError TokenState := do
  if !st.inFlow && !st.keyAllowed then throw ⟨.misplacedEntry, s.mark⟩
  let st ← (st.openBlock .blockSequenceStart st.tokens.size s.mark).dropKey
  return { st with keyAllowed := true }.add .blockEntry s.mark ss

/-- Reads the question mark before a key. -/
def readKey (st : TokenState) (s : Spot) (ss : List Spot) : Except SyntaxError TokenState := do
  if !st.inFlow && !st.keyAllowed then throw ⟨.misplacedKey, s.mark⟩
  let st ← (st.openBlock .blockMappingStart st.tokens.size s.mark).dropKey
  return { st with keyAllowed := !st.inFlow }.add .key s.mark ss

/-- Reads the colon before a value. If a possible key stands before it, that is the key. -/
def readValue (st : TokenState) (s : Spot) (ss : List Spot) : Except SyntaxError TokenState := do
  match st.key with
  | some key =>
    let tokens := st.tokens.insertIdxIfInBounds key.position ⟨.key, key.mark⟩
    let st := { st with tokens := tokens, key := none, keyAllowed := false }
    return (st.openBlock .blockMappingStart key.position key.mark).add .value s.mark ss
  | none =>
    if !st.inFlow && !st.keyAllowed then throw ⟨.misplacedValue, s.mark⟩
    let st := st.openBlock .blockMappingStart st.tokens.size s.mark
    return { st with keyAllowed := !st.inFlow }.add .value s.mark ss

/-- Reads an anchor or an alias. -/
def readAnchor (st : TokenState) (kind : String → TokenKind) (s : Spot) (ss : List Spot) :
    Except SyntaxError TokenState := do
  let st ← st.expectKey
  let (name, rest) ← anchorName ss s.mark
  return { st with keyAllowed := false }.add (kind name) s.mark rest

/-- Reads a tag. -/
def readTag (st : TokenState) (s : Spot) (ss : List Spot) : Except SyntaxError TokenState := do
  let st ← st.expectKey
  let (kind, rest) ← tagToken st.inFlow (s :: ss) s.mark
  return { st with keyAllowed := false }.add kind s.mark rest

/-- Reads a block scalar. -/
def readBlockScalar (st : TokenState) (style : ScalarStyle) (s : Spot) (ss : List Spot) :
    Except SyntaxError TokenState := do
  let st ← st.dropKey
  let (text, rest) ← blockScalar (style == .folded) st.indent ss
  return { st with keyAllowed := true }.add (.scalar (String.ofList text) style) s.mark rest

/-- Reads a quoted scalar. -/
def readQuoted (st : TokenState) (style : ScalarStyle) (s : Spot) (ss : List Spot) :
    Except SyntaxError TokenState := do
  let st ← st.expectKey
  let (text, rest) ← quotedFrom (style == .doubleQuoted) s.mark .text none [] ss
  return { st with keyAllowed := false }.add (.scalar (String.ofList text) style) s.mark rest

/-- Reads a plain scalar. A key may follow one behind which a line ended. -/
def readPlain (st : TokenState) (s : Spot) (ss : List Spot) : Except SyntaxError TokenState := do
  let st ← st.expectKey
  let scan ← plainFrom st.inFlow (st.indent + 1) none [] (s :: ss)
  return { st with keyAllowed := scan.broken }.add
    (.scalar (String.ofList scan.text) .plain) s.mark scan.rest

/-- Whether a plain scalar starts here. -/
def startsPlain (st : TokenState) (c : Char) (next : Option Char) : Bool :=
  !(endsWord (some c) || isIndicator c) || (c == '-' && !next.any isGap) ||
    (!st.inFlow && (c == '?' || c == ':') && !endsWord next)

/-- Reads the next token. -/
def readToken (st : TokenState) (s : Spot) (ss : List Spot) : Except SyntaxError TokenState :=
  let c := s.char
  let wordEnds := endsWord (nextChar ss)
  if s.mark.column == 0 && c == '%' then st.readDirective s ss
  else if isTripled '-' (s :: ss) then st.readDocumentMark .documentStart s ss
  else if isTripled '.' (s :: ss) then st.readDocumentMark .documentEnd s ss
  else if c == '[' then st.openFlow .flowSequenceStart s ss
  else if c == '\x7b' then st.openFlow .flowMappingStart s ss
  else if c == ']' then st.closeFlow .flowSequenceEnd s ss
  else if c == '\x7d' then st.closeFlow .flowMappingEnd s ss
  else if c == ',' then st.readFlowEntry s ss
  else if c == '-' && wordEnds then st.readBlockEntry s ss
  else if c == '?' && (st.inFlow || wordEnds) then st.readKey s ss
  else if c == ':' && (st.inFlow || wordEnds) then st.readValue s ss
  else if c == '*' then st.readAnchor .reference s ss
  else if c == '&' then st.readAnchor .anchor s ss
  else if c == '!' then st.readTag s ss
  else if c == '|' && !st.inFlow then st.readBlockScalar .literal s ss
  else if c == '>' && !st.inFlow then st.readBlockScalar .folded s ss
  else if c == '\x27' then st.readQuoted .singleQuoted s ss
  else if c == '\"' then st.readQuoted .doubleQuoted s ss
  else if st.startsPlain c (nextChar ss) then st.readPlain s ss
  else .error ⟨.strayCharacter, s.mark⟩

/-- Closes what is open at the end of a text, as if the end stood on a line of its own. -/
def finish (st : TokenState) : Except SyntaxError (Array Token) := do
  let stop := if st.stop.column = 0 then st.stop else ⟨st.stop.index, st.stop.line + 1, 0⟩
  let st ← st.leave stop
  return st.tokens.push ⟨.streamEnd, stop⟩

/-- Reads all tokens that are left. As each takes a character at least, their number is bounded by
that of the spots, which the first argument exceeds. -/
def readAll : Nat → TokenState → Except SyntaxError (Array Token)
  | 0, st => .error ⟨.strayCharacter, st.mark⟩
  | fuel + 1, st => do
    let st ← st.advance
    match st.rest with
    | [] => st.finish
    | s :: ss => readAll fuel (← st.readToken s ss)

end TokenState

/-- The tokens of a text. -/
def tokens (text : List Char) : Except SyntaxError (Array Token) := do
  let (spots, stop) := spotsFrom .origin text
  match spots.find? fun s => !isAllowed s.char with
  | some s => throw ⟨.forbiddenCharacter, s.mark⟩
  | none => (TokenState.start spots stop).readAll (spots.length + 1)

end ColumnAudit.Yaml
