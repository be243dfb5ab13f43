import ColumnAudit.Yaml.Spot

/-! # Texts that are not YAML

Why a text is not one well-formed YAML document, and where.
-/

namespace ColumnAudit.Yaml
set_option autoImplicit false

/-- What is wrong with a text. -/
inductive SyntaxProblem where
  | notUtf8
  | forbiddenCharacter
  | missingColon
  | misplacedEntry
  | misplacedKey
  | misplacedValue
  | strayCharacter
  | badDirective
  | badAnchor
  | badTag
  | badBlockHeader
  | tabInIndentation
  | documentMarkInScalar
  | unclosedQuote
  | badEscape
  | ambiguousColon
  | unexpectedToken
  | unknownTagHandle
  | unknownAnchor
  | severalDocuments
deriving DecidableEq, Repr

namespace SyntaxProblem

/-- What is said about a problem. -/
def message : SyntaxProblem → String
  | notUtf8 => "the text is not valid UTF-8"
  | forbiddenCharacter => "control characters are not allowed"
  | missingColon => "a key has no ':' behind it"
  | misplacedEntry => "a block sequence entry is not allowed here"
  | misplacedKey => "a mapping key is not allowed here"
  | misplacedValue => "a mapping value is not allowed here"
  | strayCharacter => "a character cannot start any token"
  | badDirective => "a directive is malformed"
  | badAnchor => "an anchor or alias is malformed"
  | badTag => "a tag is malformed"
  | badBlockHeader => "the header of a block scalar is malformed"
  | tabInIndentation => "a tab stands where indentation is expected"
  | documentMarkInScalar => "a document starts or ends inside a quoted scalar"
  | unclosedQuote => "a quoted scalar is not closed"
  | badEscape => "an escape sequence is malformed"
  | ambiguousColon => "a ':' stands directly before a flow indicator"
  | unexpectedToken => "a token does not fit here"
  | unknownTagHandle => "a tag handle is not declared"
  | unknownAnchor => "an alias has no anchor"
  | severalDocuments => "there is more than one document"

end SyntaxProblem

/-- A problem and where it shows. -/
structure SyntaxError where
  problem : SyntaxProblem
  mark : Mark
deriving DecidableEq, Repr

/-- A position in a message, counted from one. -/
def Mark.text (m : Mark) : String :=
  "line " ++ toString (m.line + 1) ++ " column " ++ toString (m.column + 1)

/-- What is said about a text that is not YAML. -/
def SyntaxError.message (e : SyntaxError) : String := e.problem.message ++ " at " ++ e.mark.text

end ColumnAudit.Yaml
