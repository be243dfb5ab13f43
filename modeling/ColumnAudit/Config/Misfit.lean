import ColumnAudit.Config.Field
import ColumnAudit.Yaml.SyntaxError

/-! # Documents that are no configuration

What does not fit when a well-formed document is read as a configuration, and where.
-/

namespace ColumnAudit
open Yaml Number
set_option autoImplicit false

/-- What a node is. -/
inductive Found where
  | unit
  | boolean (b : Bool)
  | integer (n : Int)
  | float (x : Binary64)
  | text (s : String)
  | sequence
  | mapping
deriving DecidableEq, Repr

/-- A whole number in a message. One that does not fit into 64 bits is said to be wider. -/
def wholeNumber (n : Int) : String :=
  let width :=
    if 0 ≤ n then if Nat.pow 2 64 ≤ n.natAbs then " as u128" else ""
    else if Nat.pow 2 63 < n.natAbs then " as i128"
    else ""
  "integer \x60" ++ toString n ++ "\x60" ++ width

/-- What is said about a node. -/
def Found.description : Found → String
  | unit => "unit value"
  | boolean b => "boolean \x60" ++ (if b then "true" else "false") ++ "\x60"
  | integer n => wholeNumber n
  | float x => "floating point \x60" ++ x.pointedPlain ++ "\x60"
  | text s => "string " ++ Text.quoted s
  | sequence => "sequence"
  | mapping => "map"

/-- What a place in a document asks for. -/
inductive Wanted where
  | config
  | fieldName
  | path
  | text
  | mapping
  | sequence
deriving DecidableEq, Repr

/-- What is said about what a place asks for. -/
def Wanted.description : Wanted → String
  | config => "struct AuditConfig"
  | fieldName => "field identifier"
  | path => "path string"
  | text => "a string"
  | mapping => "a map"
  | sequence => "a sequence"

/-- The types that a tag can give to a scalar. -/
inductive TaggedType where
  | boolean
  | integer
  | float
  | null
deriving DecidableEq, Repr

/-- What is said about the values of a type. -/
def TaggedType.description : TaggedType → String
  | boolean => "a boolean"
  | integer => "an integer"
  | float => "a float"
  | null => "null"

/-- What does not fit. -/
inductive MisfitCause where
  /-- A place asks for something else than what stands there. -/
  | wrongType (found : Found) (wanted : Wanted)
  /-- The characters of a scalar do not belong to the type that its tag gives to it. -/
  | wrongValue (text : String) (type : TaggedType)
  | unknownField (name : String)
  | repeatedField (field : ConfigField)
  /-- Aliases are followed too often. -/
  | tooManyAliases
deriving DecidableEq, Repr

/-- What is said about something that does not fit. -/
def MisfitCause.message : MisfitCause → String
  | wrongType found wanted =>
    "invalid type: " ++ found.description ++ ", expected " ++ wanted.description
  | wrongValue text type =>
    "invalid value: string " ++ Text.quoted text ++ ", expected " ++ type.description
  | unknownField name =>
    "unknown field \x60" ++ name ++ "\x60, expected one of " ++
      ", ".intercalate (ConfigField.all.map fun f => "\x60" ++ f.name ++ "\x60")
  | repeatedField field => "duplicate field \x60" ++ field.name ++ "\x60"
  | tooManyAliases => "repetition limit exceeded"

/-- What does not fit, in which part of the document, and where in the text. -/
structure Misfit where
  cause : MisfitCause
  /-- The part of the document, by keys and indices; empty for the whole document. -/
  part : String
  mark : Mark
deriving DecidableEq, Repr

/-- What is said about a document that is no configuration. The very front of the text is not worth
a mention, nor is the whole document. -/
def Misfit.message (m : Misfit) : String :=
  (if m.part = "" then "" else m.part ++ ": ") ++ m.cause.message ++
    if m.mark.line = 0 ∧ m.mark.column = 0 then "" else " at " ++ m.mark.text

end ColumnAudit
