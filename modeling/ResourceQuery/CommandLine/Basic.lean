import ResourceQuery.CommandLine.Arguments
import ResourceQuery.CommandLine.Report

/-!
# The command line

The program takes a command with its arguments.  `check`, `parse`, `format` and
`compile` work on a query text, given as an operand or on standard input; `docs`
and `doc` show the manual.

## Main definitions

* `Command`, `Command.read`: the commands and their arguments.
* `CommandLine.run`: the outcome of the program on its arguments and its input.
-/

namespace ResourceQuery

/-- What the program leaves behind. -/
structure Outcome where
  exitCode : Nat
  stdout : String := ""
  stderr : String := ""

/-- A command with what it needs. -/
inductive Command where
  /-- Report on a text; without one, on the text of the standard input. -/
  | report (query : Option String) (request : String → Request)
  /-- Show a page of the manual. -/
  | manual (topic : Option String)

namespace Command

/-- The option for JSON over several lines. -/
def prettyOption : OptionSpec := { name := "pretty", letter := some 'p' }

/-- The options that fix the dialect of trees. -/
def treeOptions : List OptionSpec :=
  [prettyOption, { name := "json-query" }, { name := "no-fiql" }, { name := "slashed-arrays" },
    { name := "allow-empty" }, { name := "default-converter", kind := .value }]

/-- The options of compilation. -/
def filterOptions : List OptionSpec :=
  [prettyOption, { name := "allow-where" }, { name := "compact-and" },
    { name := "whitelist", kind := .values }, { name := "blacklist", kind := .values }]

/-- A report on a text. -/
def check (a : Arguments) : Command :=
  .report a.operands[0]? fun query => { query }

/-- The tree of a text. -/
def tree (a : Arguments) : Command :=
  let dialect : Dialect :=
    { encodedOperators := a.has "json-query"
      infixOperators := !a.has "no-fiql"
      slashedLists := a.has "slashed-arrays"
      emptyArguments := a.has "allow-empty"
      defaultConverter := ((a.values? "default-converter").bind (·.head?)).getD "auto" }
  .report a.operands[0]? fun query =>
    { query, kind := .tree, dialect, pretty := a.has "pretty" }

/-- The canonical form of a text. -/
def format (a : Arguments) : Command :=
  .report a.operands[0]? fun query =>
    { query, kind := .canonicalText, style := { encodeTwice := a.has "double-encode" } }

/-- The compiled form of a text. -/
def compile (a : Arguments) : Command :=
  let filter : FilterOptions :=
    { allowWhere := a.has "allow-where"
      compactAnd := a.has "compact-and"
      policy := { whitelist := a.values? "whitelist", blacklist := a.values? "blacklist" } }
  .report a.operands[0]? fun query =>
    { query, kind := .storeQuery, filter, pretty := a.has "pretty" }

/-- The page of a topic, which has to be named. -/
def topic (a : Arguments) : Except ArgumentStop Command :=
  match a.operands with
  | name :: _ => return .manual (some name)
  | [] => throw .misuse

/-- The command of a name with its arguments. -/
def read (name : String) (args : List String) : Except ArgumentStop Command := do
  if name = "check" then return check (← Arguments.read [] 1 args)
  else if name = "parse" then return tree (← Arguments.read treeOptions 1 args)
  else if name = "format" then return format (← Arguments.read [{ name := "double-encode" }] 1 args)
  else if name = "compile" then return compile (← Arguments.read filterOptions 1 args)
  else if name = "docs" then
    let _ ← Arguments.read [] 0 args
    return .manual none
  else if name = "doc" then topic (← Arguments.read [] 1 args)
  else if name = "help" then throw .help
  else throw .misuse

/-- The command reads the standard input. -/
def needsInput : Command → Bool
  | .report none _ => true
  | _ => false

/-- The outcome of a command. -/
def run (stdin : ByteArray) : Command → Except Failure String
  | .manual topic => Manual.find topic
  | .report query request => do
    let query ← match query.or (String.fromUTF8? stdin) with
      | some query => pure query
      | none => throw .undecodable
    let request := request query
    match request.run with
    | .ok shown => return shown.show request.pretty ++ "\n"
    | .error e => throw (.parse e)

end Command

namespace CommandLine

/-- The name and the version of the program. -/
def version : String := "rql 0.1.0\n"

/-- The text for arguments that the program does not take. -/
def usage : String := "Usage: rql <check|parse|format|compile|docs|doc> [ARGUMENTS]\n"

/-- The outcome of an argument that is not acted on. -/
def stopped : ArgumentStop → Outcome
  | .misuse => { exitCode := 2, stderr := usage }
  | .help => { exitCode := 0, stdout := usage }

/-- The command that the arguments of the program name, or the outcome if they
name none. -/
def command (args : List String) : Except Outcome Command :=
  match args with
  | [] => .error (stopped .misuse)
  | first :: rest =>
    match first.toList with
    | '-' :: 'V' :: _ => .error { exitCode := 0, stdout := version }
    | '-' :: 'h' :: _ => .error (stopped .help)
    | _ =>
      if first = "--version" then .error { exitCode := 0, stdout := version }
      else if first = "--help" then .error (stopped .help)
      else (Command.read first rest).mapError stopped

/-- The outcome of a command on the standard input. -/
def outcome (c : Command) (stdin : ByteArray) : Outcome :=
  match c.run stdin with
  | .ok text => { exitCode := 0, stdout := text }
  | .error failure => { exitCode := 1, stderr := failure.message ++ "\n" }

/-- The outcome of the program on its arguments and its standard input. -/
def run (args : List String) (stdin : ByteArray) : Outcome :=
  match command args with
  | .ok c => outcome c stdin
  | .error o => o

end CommandLine

end ResourceQuery
