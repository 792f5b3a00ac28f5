/-!
# Command-line arguments

The arguments of a command are options, given by name, and operands.  An option
is a flag or takes a value, in the same argument after `=` or in the next one.
After `--` all arguments are operands.

## Main definitions

* `OptionKind`, `OptionSpec`: the options of a command.
* `Arguments`: what was given.
* `Arguments.read`: reading a list of arguments.
-/

namespace ResourceQuery

/-- What an option takes. -/
inductive OptionKind where
  | flag
  /-- One value. -/
  | value
  /-- Values with commas between them; the option may be repeated. -/
  | values
deriving DecidableEq

/-- An option: its long name, and its letter if it has one. -/
structure OptionSpec where
  name : String
  letter : Option Char := none
  kind : OptionKind := .flag

/-- The options and the operands that were given. -/
structure Arguments where
  options : List (String × List String) := []
  operands : List String := []

/-- Why the arguments are not acted on. -/
inductive ArgumentStop where
  /-- They are not what the command takes. -/
  | misuse
  /-- They ask for help. -/
  | help
deriving DecidableEq

namespace Arguments

/-- The option was given. -/
def has (a : Arguments) (name : String) : Bool := (a.options.lookup name).isSome

/-- The values of an option, if it was given. -/
def values? (a : Arguments) (name : String) : Option (List String) := a.options.lookup name

/-- Cut a text at every comma. -/
def splitCommas : List Char → List (List Char)
  | [] => [[]]
  | ',' :: cs => [] :: splitCommas cs
  | c :: cs =>
    match splitCommas cs with
    | [] => [[c]]
    | part :: parts => (c :: part) :: parts

/-- Record a value of an option. -/
def addValue (a : Arguments) (spec : OptionSpec) (value : String) :
    Except ArgumentStop Arguments :=
  match spec.kind, a.values? spec.name with
  | .flag, _ => throw .misuse
  | .value, some _ => throw .misuse
  | .value, none => return { a with options := a.options ++ [(spec.name, [value])] }
  | .values, earlier =>
    let added := (splitCommas value.toList).map String.ofList
    return { a with
      options := a.options.filter (·.1 != spec.name) ++
        [(spec.name, earlier.getD [] ++ added)] }

/-- Record a flag, which may be given once. -/
def addFlag (a : Arguments) (spec : OptionSpec) : Except ArgumentStop Arguments :=
  if spec.kind = .flag ∧ ¬ a.has spec.name then
    return { a with options := a.options ++ [(spec.name, [])] }
  else throw .misuse

/-- Record the letters of an argument such as `-p`. -/
def addLetters (specs : List OptionSpec) (a : Arguments) :
    List Char → Except ArgumentStop Arguments
  | [] => return a
  | 'h' :: _ => throw .help
  | c :: cs => do
    match specs.find? fun s => s.letter = some c with
    | some spec => addLetters specs (← a.addFlag spec) cs
    | none => throw .misuse

/-- Record an operand, if there is room for it. -/
def addOperand (a : Arguments) (most : Nat) (text : String) : Except ArgumentStop Arguments :=
  if a.operands.length < most then return { a with operands := a.operands ++ [text] }
  else throw .misuse

/-- The argument is an option or begins the operands; a hyphen alone is
neither. -/
def isOptionLike (arg : String) : Bool :=
  match arg.toList with
  | '-' :: _ :: _ => true
  | _ => false

/-- A long option's name and the value attached to it. -/
def splitAttached (cs : List Char) : String × Option String :=
  match cs.span (· != '=') with
  | (name, _ :: value) => (String.ofList name, some (String.ofList value))
  | (name, []) => (String.ofList name, none)

/-- How far the arguments have been read. -/
structure Progress where
  arguments : Arguments := {}
  /-- An option whose value is to come. -/
  awaiting : Option OptionSpec := none
  /-- A `--` was seen. -/
  operandsOnly : Bool := false

/-- Read a long option. -/
def readLong (specs : List OptionSpec) (p : Progress) (cs : List Char) :
    Except ArgumentStop Progress :=
  let (name, attached) := splitAttached cs
  match specs.find? (·.name = name), attached with
  | some spec, some value => do return { p with arguments := ← p.arguments.addValue spec value }
  | some spec, none =>
    if spec.kind = .flag then do return { p with arguments := ← p.arguments.addFlag spec }
    else return { p with awaiting := some spec }
  | none, none => throw (if name = "help" then .help else .misuse)
  | none, some _ => throw .misuse

/-- Read one argument. -/
def readNext (specs : List OptionSpec) (most : Nat) (p : Progress) (arg : String) :
    Except ArgumentStop Progress :=
  if p.operandsOnly then do return { p with arguments := ← p.arguments.addOperand most arg }
  else
    match p.awaiting with
    | some spec =>
      if isOptionLike arg then throw .misuse
      else do return { p with arguments := ← p.arguments.addValue spec arg, awaiting := none }
    | none =>
      match arg.toList with
      | ['-', '-'] => return { p with operandsOnly := true }
      | '-' :: '-' :: cs => readLong specs p cs
      | '-' :: c :: cs => do
        return { p with arguments := ← addLetters specs p.arguments (c :: cs) }
      | _ => do return { p with arguments := ← p.arguments.addOperand most arg }

/-- Read the arguments of a command that takes at most `most` operands. -/
def read (specs : List OptionSpec) (most : Nat) (args : List String) :
    Except ArgumentStop Arguments := do
  let p ← args.foldlM (readNext specs most) {}
  if p.awaiting.isSome then throw .misuse
  return p.arguments

end Arguments

end ResourceQuery
