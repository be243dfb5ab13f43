import ColumnAudit.Yaml.Token
import ColumnAudit.Yaml.ScalarText

/-! # Anchors, tags and directives

How the tokens are read that say something about a node (its anchor, its tag) or about a whole
document (its directives).
-/

namespace ColumnAudit.Yaml
set_option autoImplicit false

/-! ## Anchors -/

/-- Whether a name of an anchor may end here. -/
def endsAnchor (c : Option Char) : Bool :=
  endsWord c || c.any fun c => "?:,]%@".toList.contains c || c == '\x7d' || c == '\x60'

/-- The name of an anchor or alias whose mark has been passed. -/
def anchorName (spots : List Spot) (start : Mark) : Except SyntaxError (String × List Spot) :=
  let name := spots.takeWhile fun s => isNameChar s.char
  let rest := spots.dropWhile fun s => isNameChar s.char
  if name.isEmpty || !endsAnchor (nextChar rest) then .error ⟨.badAnchor, start⟩
  else .ok (String.ofList (charsOf name), rest)

/-! ## Escaped octets

A character outside ASCII stands in a tag as the octets of its UTF-8 form, each a percent sign and
two digits.
-/

/-- The octet that stands here, and the spots behind it. -/
def octet? : List Spot → Option (Nat × List Spot)
  | p :: a :: b :: rest =>
    if p.char = '%' then
      match hexValue? a.char, hexValue? b.char with
      | some x, some y => some (16 * x + y, rest)
      | _, _ => none
    else none
  | _ => none

/-- How many octets follow the first one of a character, and the bits that the first one adds. -/
def leadingOctet? (n : Nat) : Option (Nat × Nat) :=
  if n < 0x80 then some (0, n)
  else if 0xC0 ≤ n ∧ n < 0xE0 then some (1, n - 0xC0)
  else if 0xE0 ≤ n ∧ n < 0xF0 then some (2, n - 0xE0)
  else if 0xF0 ≤ n ∧ n < 0xF8 then some (3, n - 0xF0)
  else none

/-- The value that further octets complete. -/
def furtherOctets : Nat → Nat → List Spot → Option (Nat × List Spot)
  | 0, value, spots => some (value, spots)
  | count + 1, value, spots =>
    match octet? spots with
    | some (n, rest) =>
      if 0x80 ≤ n ∧ n < 0xC0 then furtherOctets count (64 * value + (n - 0x80)) rest else none
    | none => none

/-- The smallest character that takes some further octets. -/
def smallestWith : Nat → Nat
  | 0 => 0
  | 1 => 0x80
  | 2 => 0x800
  | _ => 0x10000

/-- The escaped character that stands here. Octets that are the form of none count as one that
occurs in no known tag. -/
def escapedChar? (spots : List Spot) : Option (Char × List Spot) := do
  let (n, rest) ← octet? spots
  let (count, value) ← leadingOctet? n
  let (value, rest) ← furtherOctets count value rest
  let valid := value.isValidChar && decide (smallestWith count ≤ value)
  return (if valid then Char.ofNat value else '\ufffd', rest)

/-! ## Tags -/

/-- Characters of tags. In a tag between angles and in a directive, flow indicators are some too. -/
def isTagChar (anywhere : Bool) (c : Char) : Bool :=
  isNameChar c || ";/?:@&=+$.%!~*()".toList.contains c || c == '\x27' ||
    (anywhere && (c == ',' || c == '[' || c == ']'))

/-- The longest run of characters of a tag, with escapes decoded. The first argument is at least the
number of spots. -/
def tagChars (anywhere : Bool) : Nat → List Spot → Option (List Char × List Spot)
  | fuel + 1, s :: ss =>
    if !isTagChar anywhere s.char then some ([], s :: ss)
    else if s.char = '%' then do
      let (c, rest) ← escapedChar? (s :: ss)
      let (cs, rest) ← tagChars anywhere fuel rest
      return (c :: cs, rest)
    else do
      let (cs, rest) ← tagChars anywhere fuel ss
      return (s.char :: cs, rest)
  | _, spots => some ([], spots)

/-- The run of characters of a tag that stands here. -/
def tagRun (anywhere : Bool) (spots : List Spot) (start : Mark) :
    Except SyntaxError (List Char × List Spot) :=
  match tagChars anywhere spots.length spots with
  | some found => .ok found
  | none => .error ⟨.badTag, start⟩

/-- The handle that stands here, an exclamation mark, letters and perhaps another exclamation
mark. -/
def tagHandle (spots : List Spot) (start : Mark) : Except SyntaxError (List Char × List Spot) :=
  match spots with
  | s :: ss =>
    if s.char = '!' then
      let name := charsOf (ss.takeWhile fun s => isNameChar s.char)
      match ss.dropWhile fun s => isNameChar s.char with
      | t :: rest =>
        if t.char = '!' then .ok ('!' :: name ++ ['!'], rest) else .ok ('!' :: name, t :: rest)
      | [] => .ok ('!' :: name, [])
    else .error ⟨.badTag, start⟩
  | [] => .error ⟨.badTag, start⟩

/-- The handle and the suffix of the tag that stands here. A tag between angles has no handle; the
tag that is an exclamation mark alone has no handle either. -/
def tagParts (spots : List Spot) (start : Mark) :
    Except SyntaxError (String × String × List Spot) := do
  match spots with
  | _ :: t :: rest =>
    if t.char = '<' then
      let (suffix, rest) ← tagRun true rest start
      if suffix.isEmpty || nextChar rest != some '>' then throw ⟨.badTag, start⟩
      return ("", String.ofList suffix, rest.drop 1)
  | _ => pure ()
  let (handle, rest) ← tagHandle spots start
  let (suffix, rest) ← tagRun false rest start
  if handle.length > 1 && handle.getLast? == some '!' then
    if suffix.isEmpty then throw ⟨.badTag, start⟩
    return (String.ofList handle, String.ofList suffix, rest)
  let suffix := handle.drop 1 ++ suffix
  if suffix.isEmpty then return ("", "!", rest)
  return ("!", String.ofList suffix, rest)

/-- The tag that stands here. It ends with a word or, in a flow collection, at a comma. -/
def tagToken (inFlow : Bool) (spots : List Spot) (start : Mark) :
    Except SyntaxError (TokenKind × List Spot) := do
  let (handle, suffix, rest) ← tagParts spots start
  let next := nextChar rest
  if endsWord next || (inFlow && next == some ',') then return (.tag handle suffix, rest)
  throw ⟨.badTag, start⟩

/-! ## Directives -/

/-- The spots behind gaps. -/
def skipGaps (spots : List Spot) : List Spot := spots.dropWhile fun s => isGap s.char

/-- The number of at most nine digits that stands here. -/
def versionNumber (spots : List Spot) (start : Mark) : Except SyntaxError (Nat × List Spot) :=
  let digits := charsOf (spots.takeWhile fun s => s.char.isDigit)
  if digits.isEmpty || digits.length > 9 then .error ⟨.badDirective, start⟩
  else .ok (digits.foldl (fun n c => 10 * n + (c.toNat - '0'.toNat)) 0,
    spots.dropWhile fun s => s.char.isDigit)

/-- What a directive says whose name has been passed. -/
def directiveValue (name : String) (spots : List Spot) (start : Mark) :
    Except SyntaxError (TokenKind × List Spot) := do
  let spots := skipGaps spots
  if name = "YAML" then
    let (major, rest) ← versionNumber spots start
    if nextChar rest != some '.' then throw ⟨.badDirective, start⟩
    let (minor, rest) ← versionNumber (rest.drop 1) start
    return (.versionDirective major minor, rest)
  else if name = "TAG" then
    let (handle, rest) ← tagHandle spots start
    if handle.getLast? != some '!' || !(nextChar rest).any isGap then
      throw ⟨.badDirective, start⟩
    let (expansion, rest) ← tagRun true (skipGaps rest) start
    if expansion.isEmpty || !endsWord (nextChar rest) then throw ⟨.badDirective, start⟩
    return (.tagDirective (String.ofList handle) (String.ofList expansion), rest)
  else throw ⟨.badDirective, start⟩

/-- The directive whose percent sign has been passed, and the spots of the next line. -/
def directive (spots : List Spot) (start : Mark) : Except SyntaxError (TokenKind × List Spot) := do
  let name := charsOf (spots.takeWhile fun s => isNameChar s.char)
  let rest := spots.dropWhile fun s => isNameChar s.char
  if name.isEmpty || !endsWord (nextChar rest) then throw ⟨.badDirective, start⟩
  let (kind, rest) ← directiveValue (String.ofList name) rest start
  match behindHeader rest with
  | .ok rest => return (kind, rest)
  | .error e => throw ⟨.badDirective, e.mark⟩

end ColumnAudit.Yaml
