import ColumnAudit.Yaml.Node
import ColumnAudit.Yaml.TokenState

/-! # From tokens to a document

Tokens are read from the front, one function per kind of collection. `Document.parse` reads a whole
text. A node may be left out where a token that cannot start one tells so; an empty scalar then
stands for it.
-/

namespace ColumnAudit.Yaml
set_option autoImplicit false

/-- The tokens that are left, with what the ones before them have declared. -/
structure Reading where
  rest : List Token
  /-- What the handles of tags stand for. -/
  handles : List (String × String)
  /-- The numbers of the anchors, the latest first. -/
  anchors : List (String × Nat)
  /-- How many names have been anchored. -/
  names : Nat
  /-- The nodes with anchors, the latest first. -/
  anchored : List (Nat × Node)
  /-- How many starts and ends of nodes there are so far. -/
  size : Nat

/-- A step of reading tokens. -/
abbrev Read (α : Type) := StateT Reading (Except SyntaxError) α

namespace Read

/-- The next token. -/
def peek : Read Token := do return (← get).rest.headD ⟨.streamEnd, .origin⟩

/-- Passes the next token. -/
def skip : Read Unit := modify fun st => { st with rest := st.rest.tail }

/-- Refuses a token. -/
def refuse {α : Type} (token : Token) : Read α := throw ⟨.unexpectedToken, token.mark⟩

/-- Passes the next token if it is of a kind, else refuses it. -/
def expect (kind : TokenKind) : Read Unit := do
  let token ← peek
  if token.kind = kind then skip else refuse token

/-- Counts starts and ends of nodes. -/
def count (n : Nat) : Read Unit := modify fun st => { st with size := st.size + n }

/-- The empty scalar at a position. -/
def emptyNode (mark : Mark) : Read Node := do
  count 1
  return .scalar mark .empty

/-- A node, or the empty scalar if the next token is one of those given. -/
def orEmpty (stops : List TokenKind) (mark : Token → Mark) (read : Read Node) : Read Node := do
  let token ← peek
  if stops.contains token.kind then emptyNode (mark token) else read

/-! ## Anchors and tags -/

/-- What stands in front of a node. -/
structure Properties where
  anchor : Option String
  tag : Option String

/-- The tag that a handle and a suffix stand for. -/
def fullTag (mark : Mark) (handle suffix : String) : Read String := do
  if handle = "" then return suffix
  match (← get).handles.lookup handle with
  | some expansion => return expansion ++ suffix
  | none => throw ⟨.unknownTagHandle, mark⟩

/-- The anchor that stands here, if one does. -/
def anchor? : Read (Option String) := do
  match (← peek).kind with
  | .anchor name =>
    skip
    return some name
  | _ => return none

/-- The tag that stands here, if one does. -/
def tag? : Read (Option String) := do
  let token ← peek
  match token.kind with
  | .tag handle suffix =>
    skip
    return some (← fullTag token.mark handle suffix)
  | _ => return none

/-- The anchor and the tag that stand here, in either order. -/
def properties : Read Properties := do
  match ← anchor? with
  | some name => return ⟨some name, ← tag?⟩
  | none =>
    match ← tag? with
    | some tag => return ⟨← anchor?, some tag⟩
    | none => return ⟨none, none⟩

/-- The number of a new anchor, which is how many different names have been anchored before. -/
def newAnchor (name : String) : Read Nat := do
  let st ← get
  let known := (st.anchors.lookup name).isSome
  set { st with
    anchors := (name, st.names) :: st.anchors
    names := if known then st.names else st.names + 1 }
  return st.names

/-- The node that an alias is. -/
def aliasNode (mark : Mark) (name : String) : Read Node := do
  count 1
  match (← get).anchors.lookup name with
  | some number => return .reference mark number
  | none => throw ⟨.unknownAnchor, mark⟩

/-- A scalar that is written. The tag that is an exclamation mark alone is as good as none. -/
def scalarNode (mark : Mark) (tag : Option String) (text : String) (style : ScalarStyle) :
    Read Node := do
  count 1
  return .scalar mark ⟨text, if tag = some "!" then none else tag, style⟩

/-- The empty scalar behind an anchor or a tag, where another token comes. -/
def leftOut (found : Properties) (mark : Mark) (token : Token) : Read Node := do
  if found.anchor.isNone && found.tag.isNone then refuse token
  count 1
  return .scalar mark ⟨"", found.tag, .plain⟩

/-- A sequence whose items are read by a given step. -/
def sequenceNode (mark : Mark) (items : Read (List Node)) : Read Node := do
  count 2
  return .sequence mark (← items)

/-- A mapping whose pairs are read by a given step. -/
def mappingNode (mark : Mark) (pairs : Read (List (Node × Node))) : Read Node := do
  count 2
  return .mapping mark (← pairs)

/-- A node, remembered under the number of its anchor if it has one. -/
def remember (number : Option Nat) (read : Read Node) : Read Node := do
  let node ← read
  if let some n := number then modify fun st => { st with anchored := (n, node) :: st.anchored }
  return node

/-! ## Collections

The number that these functions take exceeds twice that of the tokens that are left; of two calls
inside one another, one passes a token at least.
-/

/-- The value of a pair, if a colon stands here. -/
def value (stops : List TokenKind) (mark : Token → Token → Mark) (read : Read Node) :
    Read Node := do
  let token ← peek
  if token.kind = .value then
    skip
    orEmpty stops (mark token) read
  else emptyNode token.mark

/-- The position behind a token that is one character. -/
def behind (token : Token) : Mark := token.mark.next

/-- The comma before an entry that is not the first one. -/
def comma (first : Bool) : Read Unit := if first then pure () else expect .flowEntry

mutual

/-- A node. `inBlock` says that block collections may stand here, and `indentless` that a sequence
may stand here without indentation. -/
def node : Nat → Bool → Bool → Read Node
  | 0, _, _ => do refuse (← peek)
  | fuel + 1, inBlock, indentless => do
    let first ← peek
    if let .reference name := first.kind then
      skip
      return ← aliasNode first.mark name
    let found ← properties
    let number ← found.anchor.mapM newAnchor
    let token ← peek
    remember number <| match token.kind, inBlock with
      | .blockEntry, _ =>
        if indentless then sequenceNode first.mark (indentlessItems fuel)
        else leftOut found first.mark token
      | .scalar text style, _ => do
        skip
        scalarNode first.mark found.tag text style
      | .flowSequenceStart, _ => do
        skip
        sequenceNode first.mark (flowItems fuel true)
      | .flowMappingStart, _ => do
        skip
        mappingNode first.mark (flowPairs fuel true)
      | .blockSequenceStart, true => do
        skip
        sequenceNode first.mark (blockItems fuel)
      | .blockMappingStart, true => do
        skip
        mappingNode first.mark (blockPairs fuel)
      | _, _ => leftOut found first.mark token

/-- The items of a block sequence, to its end. -/
def blockItems : Nat → Read (List Node)
  | 0 => do refuse (← peek)
  | fuel + 1 => do
    let token ← peek
    match token.kind with
    | .blockEntry =>
      skip
      let item ← orEmpty [.blockEntry, .blockEnd] (fun _ => behind token) (node fuel true false)
      return item :: (← blockItems fuel)
    | .blockEnd =>
      skip
      return []
    | _ => refuse token

/-- The items of a sequence without indentation, up to what follows it. -/
def indentlessItems : Nat → Read (List Node)
  | 0 => do refuse (← peek)
  | fuel + 1 => do
    let token ← peek
    match token.kind with
    | .blockEntry =>
      skip
      let item ← orEmpty [.blockEntry, .key, .value, .blockEnd] (fun _ => behind token)
        (node fuel true false)
      return item :: (← indentlessItems fuel)
    | _ => return []

/-- The pairs of a block mapping, to its end. -/
def blockPairs : Nat → Read (List (Node × Node))
  | 0 => do refuse (← peek)
  | fuel + 1 => do
    let token ← peek
    match token.kind with
    | .key =>
      skip
      let stops := [.key, .value, .blockEnd]
      let left ← orEmpty stops (fun _ => behind token) (node fuel true true)
      let right ← value stops (fun colon _ => behind colon) (node fuel true true)
      return (left, right) :: (← blockPairs fuel)
    | .blockEnd =>
      skip
      return []
    | _ => refuse token

/-- The items of a flow sequence, to its end. An item may be a single pair. A token that shows that
its key is left out is passed. -/
def flowItems : Nat → Bool → Read (List Node)
  | 0, _ => do refuse (← peek)
  | fuel + 1, first => do
    if (← peek).kind = .flowSequenceEnd then
      skip
      return []
    comma first
    let token ← peek
    match token.kind with
    | .key =>
      skip
      let item ← mappingNode token.mark do
        let next ← peek
        let left ← if [.value, .flowEntry, .flowSequenceEnd].contains next.kind then do
            skip
            emptyNode (behind next)
          else node fuel false false
        let right ← value [.flowEntry, .flowSequenceEnd] (fun _ => Token.mark)
          (node fuel false false)
        return [(left, right)]
      return item :: (← flowItems fuel false)
    | .flowSequenceEnd =>
      skip
      return []
    | _ =>
      let item ← node fuel false false
      return item :: (← flowItems fuel false)

/-- The pairs of a flow mapping, to its end. -/
def flowPairs : Nat → Bool → Read (List (Node × Node))
  | 0, _ => do refuse (← peek)
  | fuel + 1, first => do
    if (← peek).kind = .flowMappingEnd then
      skip
      return []
    comma first
    let token ← peek
    match token.kind with
    | .key =>
      skip
      let left ← orEmpty [.value, .flowEntry, .flowMappingEnd] Token.mark (node fuel false false)
      let right ← value [.flowEntry, .flowMappingEnd] (fun _ => Token.mark) (node fuel false false)
      return (left, right) :: (← flowPairs fuel false)
    | .flowMappingEnd =>
      skip
      return []
    | _ =>
      let left ← node fuel false false
      let right ← emptyNode (← peek).mark
      return (left, right) :: (← flowPairs fuel false)

end

/-! ## Documents -/

/-- The directives that stand here. Of versions one at most may be declared, and a handle once. -/
def directives : Nat → Bool → Read Unit
  | 0, _ => pure ()
  | fuel + 1, versioned => do
    let token ← peek
    match token.kind with
    | .versionDirective major minor =>
      if versioned || major != 1 || (minor != 1 && minor != 2) then
        throw ⟨.badDirective, token.mark⟩
      skip
      directives fuel true
    | .tagDirective handle expansion =>
      if ((← get).handles.lookup handle).isSome then throw ⟨.badDirective, token.mark⟩
      modify fun st => { st with handles := (handle, expansion) :: st.handles }
      skip
      directives fuel versioned
    | _ => pure ()

/-- The handles that need no declaration. A declaration of them has precedence. -/
def knownHandles : List (String × String) := [("!", "!"), ("!!", "tag:yaml.org,2002:")]

/-- Whether a token cannot be part of the content of a document. -/
def endsContent : TokenKind → Bool
  | .versionDirective _ _ => true
  | .tagDirective _ _ => true
  | .documentStart => true
  | .documentEnd => true
  | .streamEnd => true
  | _ => false

/-- Passes the marks of the end of a document. -/
def documentEnds : Nat → Read Unit
  | 0 => pure ()
  | fuel + 1 => do
    if (← peek).kind = .documentEnd then
      skip
      documentEnds fuel

/-- The only document that the tokens make. -/
def document (fuel : Nat) : Read (Option Node) := do
  let token ← peek
  if token.kind = .streamEnd then return none
  let explicit := endsContent token.kind && token.kind != .documentEnd
  if explicit then directives fuel false
  modify fun st => { st with handles := st.handles ++ knownHandles }
  if explicit then expect .documentStart
  let next ← peek
  let root ← if explicit && endsContent next.kind then emptyNode next.mark
    else node fuel true false
  documentEnds fuel
  let token ← peek
  if token.kind != .streamEnd then throw ⟨.severalDocuments, token.mark⟩
  return some root

end Read

/-- Reads a text. -/
def Document.parse (text : String) : Except SyntaxError Document := do
  let tokens ← tokens text.toList
  let (root, st) ← (Read.document (2 * tokens.size + 2)).run ⟨tokens.toList, [], [], 0, [], 0⟩
  return ⟨root, st.anchored, st.size⟩

end ColumnAudit.Yaml
