import ColumnAudit.Config.Misfit
import ColumnAudit.Yaml.Grammar

/-! # From documents to configurations

A document is read field by field. A field that is left out has its standard value, and a place where
nothing is written counts as an empty mapping or sequence. Where a text is asked for, a scalar is its
characters, whatever they would be elsewhere. Aliases are followed, a limited number of times.
-/

namespace ColumnAudit
open Yaml
set_option autoImplicit false

/-! ## What a node is -/

namespace Found

/-- What a scalar is whose characters decide. -/
def ofResolved : Resolved → Found
  | .unit => unit
  | .boolean b => boolean b
  | .integer n => integer n
  | .float x => float x
  | .text s => text s

/-- What a scalar is to which a tag gives a type. -/
def ofTagged (type : TaggedType) (s : String) : Except MisfitCause Found :=
  let found := match type with
    | .boolean => (boolean? s).map boolean
    | .integer => (integer? s.toList).map integer
    | .float => (float? s.toList).map float
    | .null => if isNull s then some unit else none
  match found with
  | some found => .ok found
  | none => .error (.wrongValue s type)

/-- The type that a tag gives to a scalar. -/
def taggedType? (tag : String) : Option TaggedType :=
  [("tag:yaml.org,2002:bool", TaggedType.boolean), ("tag:yaml.org,2002:int", .integer),
    ("tag:yaml.org,2002:float", .float), ("tag:yaml.org,2002:null", .null)].lookup tag

/-- What a scalar is. Its characters decide if it is plain and has no tag, or one that says
nothing of types. -/
def ofScalar (s : Scalar) : Except MisfitCause Found :=
  let plain := s.style == .plain
  match s.tag with
  | none => .ok (if plain then ofResolved (resolve s.text) else text s.text)
  | some tag =>
    match taggedType? tag with
    | some type => ofTagged type s.text
    | none =>
      .ok (if plain && "!".toList.isPrefixOf tag.toList then ofResolved (resolve s.text)
        else text s.text)

/-- What a node is that is not an alias. -/
def ofNode : Node → Except MisfitCause Found
  | .scalar _ s => ofScalar s
  | .sequence _ _ => .ok sequence
  | .mapping _ _ => .ok mapping
  | .reference _ _ => .ok unit

end Found

/-! ## Steps of decoding -/

/-- A step of decoding a document, which counts the aliases that have been followed. -/
abbrev Decode (α : Type) := StateT Nat (Except Misfit) α

namespace Decode

/-- Refuses a node. -/
def refuse {α : Type} (cause : MisfitCause) (part : String) (node : Node) : Decode α :=
  throw ⟨cause, part, node.mark⟩

/-- Refuses a node that is something else than what is asked for. -/
def mismatch {α : Type} (wanted : Wanted) (part : String) (node : Node) : Decode α :=
  match Found.ofNode node with
  | .ok found => refuse (.wrongType found wanted) part node
  | .error cause => refuse cause part node

/-- The node that is meant: the one that an alias stands for, or the node itself. -/
def follow (doc : Document) : Node → Decode Node
  | .reference mark anchor => do
    let count ← modifyGet fun n => (n + 1, n + 1)
    if count > doc.aliasLimit then throw ⟨.tooManyAliases, "", .origin⟩
    return (doc.anchored? anchor).getD (.scalar mark .empty)
  | node => return node

/-- The part of a document behind a key in another part. -/
def member (part key : String) : String := if part = "" then key else part ++ "." ++ key

/-- The part of a document behind a key that is a node. A key that is no scalar has no text. -/
def memberOf (part : String) : Node → String
  | .scalar _ s => member part s.text
  | _ => member part "?"

/-- The part of a document at an index of another part. -/
def item (part : String) (index : Nat) : String := part ++ "[" ++ toString index ++ "]"

/-! ## Kinds of values -/

/-- A text. -/
def text (doc : Document) (wanted : Wanted) (part : String) (node : Node) : Decode String := do
  match ← follow doc node with
  | .scalar _ s => return s.text
  | node => mismatch wanted part node

/-- The items of a sequence. -/
def items (doc : Document) (part : String) (node : Node) : Decode (List Node) := do
  match ← follow doc node with
  | .sequence _ items => return items
  | .scalar mark s => if s.isEmpty then return [] else mismatch .sequence part (.scalar mark s)
  | node => mismatch .sequence part node

/-- The pairs of a mapping. -/
def pairs (doc : Document) (part : String) (node : Node) : Decode (List (Node × Node)) := do
  match ← follow doc node with
  | .mapping _ pairs => return pairs
  | .scalar mark s => if s.isEmpty then return [] else mismatch .mapping part (.scalar mark s)
  | node => mismatch .mapping part node

/-- The texts of nodes from an index on. -/
def texts (doc : Document) (part : String) : Nat → List Node → Decode (List String)
  | _, [] => return []
  | index, node :: nodes => do
    let s ← text doc .text (item part index) node
    return s :: (← texts doc part (index + 1) nodes)

/-- A set of names. -/
def names (doc : Document) (part : String) (node : Node) : Decode NameSet := do
  return NameSet.ofList (← texts doc part 0 (← items doc part node))

/-- The sets of names behind some keys. -/
def entries (doc : Document) (part : String) : List (Node × Node) → Decode (List (String × NameSet))
  | [] => return []
  | (key, value) :: rest => do
    let name ← text doc .text part key
    let set ← names doc (memberOf part key) value
    return (name, set) :: (← entries doc part rest)

/-! ## Configurations -/

/-- The configuration with the value of a field replaced. -/
def field (doc : Document) (c : Config) (f : ConfigField) (part : String) (node : Node) :
    Decode Config := do
  match f with
  | .schema => return { c with schema := ⟨← text doc .path part node⟩ }
  | .actionsFolder => return { c with actionsFolder := ⟨← text doc .path part node⟩ }
  | .typesFolder => return { c with typesFolder := ⟨← text doc .path part node⟩ }
  | .extension => return { c with extension := ← text doc .text part node }
  | .fileTables =>
    return { c with fileTables := .ofList (← entries doc part (← pairs doc part node)) }
  | .knownKeys => return { c with knownKeys := ← names doc part node }

/-- Reads fields one after the other. No field may be repeated. -/
def fields (doc : Document) (start : Mark) (seen : List ConfigField) (c : Config) :
    List (Node × Node) → Decode Config
  | [] => return c
  | (key, value) :: rest => do
    let keyNode ← follow doc key
    let name ← text doc .fieldName "" keyNode
    match ConfigField.ofName? name with
    | none => refuse (.unknownField name) "" keyNode
    | some f =>
      if seen.contains f then throw ⟨.repeatedField f, "", start⟩
      let c ← field doc c f (memberOf "" key) value
      fields doc start (f :: seen) c rest

/-- Reads a whole document. -/
def config (doc : Document) : Decode Config := do
  match doc.root with
  | none => return .standard
  | some (.mapping mark pairs) => fields doc mark [] .standard pairs
  | some (.scalar mark s) =>
    if s.isEmpty then return .standard else mismatch .config "" (.scalar mark s)
  | some node => mismatch .config "" node

end Decode

/-! ## Reading texts -/

/-- Why a text is no configuration. -/
inductive ConfigFault where
  /-- It is not one well-formed document. -/
  | malformed (e : SyntaxError)
  /-- Its document does not fit. -/
  | misfit (m : Misfit)
deriving DecidableEq, Repr

/-- What is said about a text that is no configuration. -/
def ConfigFault.message : ConfigFault → String
  | malformed e => e.message
  | misfit m => m.message

namespace Config

/-- Reads a configuration. -/
def read (text : String) : Except ConfigFault Config :=
  match Document.parse text with
  | .error e => .error (.malformed e)
  | .ok doc =>
    match (Decode.config doc).run 0 with
    | .ok (c, _) => .ok c
    | .error m => .error (.misfit m)

end Config
end ColumnAudit
