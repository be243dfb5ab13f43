import ColumnAudit.CommandLine.Options

/-! # From arguments to commands

Commands are found by words, and one word may stand for a group of further ones. What follows the
words are the options of the command.
-/

namespace ColumnAudit.CommandLine
open Files
set_option autoImplicit false

/-! ## The commands and their options -/

/-- The commands that have options. -/
inductive Verb where
  | audit
  | catalog
  | fields
  | configInit
  | configShow
deriving DecidableEq, Repr

namespace Verb

/-- The options of a command. -/
def options : Verb → List OptionSpec
  | audit => [
    ⟨.threshold, "fail-under", none, .threshold⟩,
    ⟨.format, "format", none, .format⟩,
    ⟨.config, "config", some 'c', .path⟩,
    ⟨.root, "root", none, .path⟩,
    ⟨.schema, "schema", some 's', .path⟩,
    ⟨.actionsFolder, "actions-dir", none, .path⟩,
    ⟨.typesFolder, "types-dir", none, .path⟩]
  | catalog => [
    ⟨.schema, "schema", some 's', .path⟩,
    ⟨.format, "format", none, .format⟩]
  | fields => [
    ⟨.input, "input", some 'i', .path⟩,
    ⟨.kind, "kind", none, .kind⟩]
  | configInit => [
    ⟨.output, "output", some 'o', .path⟩,
    ⟨.force, "force", none, .flag⟩]
  | configShow => [
    ⟨.config, "config", some 'c', .path⟩]

/-- The command that options make. -/
def command (given : Given) : Verb → Except Refusal Command
  | audit => .ok (.audit {
      threshold := given.threshold?
      format := given.format?.getD .json
      config := given.path? .config
      root := (given.path? .root).getD ⟨"."⟩
      schema := given.path? .schema
      actionsFolder := given.path? .actionsFolder
      typesFolder := given.path? .typesFolder })
  | catalog => do return .catalog (← given.path .schema) (given.format?.getD .table)
  | fields => do return .fields (← given.path .input) (given.kind?.getD .actions)
  | configInit => do return .configInit (← given.path .output) (given.has .force)
  | configShow => .ok (.configShow (given.path? .config))

end Verb

/-! ## The words of commands -/

/-- The words that may follow, each for a command or a group of further words. -/
inductive Words where
  | verb (v : Verb)
  | group (versioned : Bool) (members : List (String × Words))

namespace Words

/-- All words. Only the program as a whole has a version. -/
def program : Words :=
  .group true [
    ("audit", .verb .audit),
    ("catalog", .verb .catalog),
    ("fields", .verb .fields),
    ("config", .group false [("init", .verb .configInit), ("show", .verb .configShow)])]

/-- What a word stands for. -/
def member? : Words → String → Option Words
  | verb _, _ => none
  | group _ members, word => members.lookup word

/-- The answer to a request for help on some words. A group knows the word for help too, behind which
no word is known. -/
def help : Words → List String → Refusal
  | _, [] => .help
  | verb _, _ :: _ => .unknownCommand
  | group versioned members, word :: rest =>
    match (group versioned members).member? word with
    | some inner => inner.help rest
    | none => if word = "help" ∧ rest.isEmpty then .help else .unknownCommand

/-- The answer to an option in front of the words of a group. -/
def leadingOption (versioned : Bool) (text : String) : Refusal :=
  let known := ["--help", "-h"] ++ if versioned then ["--version", "-V"] else []
  let name := String.ofList (text.toList.takeWhile (· != '='))
  match text.toList with
  | '-' :: '-' :: _ =>
    if !known.contains name then .unknownArgument
    else if text != name then .needlessValue
    else if name = "--help" then .help
    else .version
  | _ =>
    if "-h".toList.isPrefixOf text.toList then .help
    else if versioned && "-V".toList.isPrefixOf text.toList then .version
    else .unknownArgument

/-- The answer to what stands behind two dashes alone, where a word of a group is missing. -/
def behindDashes (words : Words) : List String → Refusal
  | [] => .missingCommand
  | word :: _ =>
    if (words.member? word).isSome || word == "help" then .unknownArgument else .unknownCommand

/-- Whether an argument is an option. -/
def isOption (argument : String) : Bool :=
  match argument.toList with
  | '-' :: _ :: _ => true
  | _ => false

/-- The command that arguments ask for. -/
def read : Words → List String → Except Refusal Command
  | verb v, arguments => do v.command (← Collected.empty.readAll v.options arguments)
  | group _ _, [] => .error .missingCommand
  | group versioned members, argument :: rest =>
    match (group versioned members).member? argument with
    | some inner => inner.read rest
    | none =>
      if argument = "help" then .error ((group versioned members).help rest)
      else if argument = "--" then .error ((group versioned members).behindDashes rest)
      else if isOption argument then .error (leadingOption versioned argument)
      else .error .unknownCommand

end Words

/-- The command that the arguments of the program ask for. -/
def parse (arguments : List String) : Except Refusal Command := Words.program.read arguments

end ColumnAudit.CommandLine
