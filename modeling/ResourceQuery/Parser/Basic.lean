import ResourceQuery.Converter.Registry
import ResourceQuery.Parser.Dialect
import ResourceQuery.Term
import ResourceQuery.Token

/-!
# Parsing

A parser reads tokens from left to right and keeps the terms it is inside of on a
stack.  A word waits in a slot until the next token tells what it is: a `(` makes
it the name of a term, anything else an argument.  `&` and `|` name the group they
stand in, so a list in parentheses becomes a group when the first of them is seen.

Along the way the arguments of chosen terms, the clauses, are collected; of each
name only the occurrence that opens last is kept.

## Main definitions

* `Parser`: a dialect and a registry of converters.
* `Parser.State`, `Parser.step`, `Parser.finish`: the stack machine.
* `Parser.run`: the tree of a text and its clauses.
* `Parser.parse`: the tree alone.
-/

namespace ResourceQuery

/-- A dialect with the converters of its words. -/
structure Parser where
  dialect : Dialect := {}
  registry : Registry := .builtin

/-- The arguments of a term that is collected. -/
structure Clause where
  name : String
  args : List Node

namespace Parser

/-- What the last token left to be decided. -/
inductive Slot where
  /-- Nothing; a comma here separates nothing. -/
  | vacant
  /-- A comma was last; another one leaves a gap. -/
  | separated
  /-- A word waits. -/
  | word (text : String)
deriving DecidableEq

/-- A term under construction. -/
structure Frame where
  name : Option String
  args : Array Node
  /-- The position of its opening parenthesis. -/
  openedAt : Nat

/-- A clause and the position where it opened. -/
structure Capture where
  openedAt : Nat
  clause : Clause

/-- The state of the machine between two tokens. -/
structure State where
  /-- The enclosing terms, the innermost first. -/
  outer : List Frame
  frame : Frame
  slot : Slot
  captures : List Capture

/-- Before the first token. -/
def State.start : State where
  outer := []
  frame := ⟨none, #[], 0⟩
  slot := .vacant
  captures := []

/-- Add an argument to a term under construction. -/
def Frame.push (f : Frame) (n : Node) : Frame :=
  { f with args := f.args.push n }

/-- A finished term as a node; without a name it is a list. -/
def Frame.toNode (f : Frame) : Node :=
  match f.name with
  | none => .list f.args.toList
  | some name => .term (some name) f.args.toList

/-- Convert a word to a node. -/
def convert (p : Parser) (word : String) : Except Error Node :=
  (p.registry.convert p.dialect.defaultConverter word).map .value

/-- A waiting word becomes an argument; the slot is vacant afterwards. -/
def flush (p : Parser) (s : State) : Except Error State :=
  match s.slot with
  | .word text => do
    let n ← p.convert text
    return { s with frame := s.frame.push n, slot := .vacant }
  | _ => return { s with slot := .vacant }

/-- Record the opening of a clause, which replaces an earlier one of its name. -/
def capture (p : Parser) (name : Option String) (position : Nat) (captures : List Capture) :
    List Capture :=
  match name with
  | some name =>
    if p.dialect.clauseNames.contains name then
      captures.filter (fun c => c.clause.name != name) ++ [⟨position, ⟨name, []⟩⟩]
    else captures
  | none => captures

/-- The arguments of the clause that opened at a position are known. -/
def settle (position : Nat) (args : List Node) (captures : List Capture) : List Capture :=
  captures.map fun c =>
    if c.openedAt = position then { c with clause := { c.clause with args := args } } else c

/-- A `(`: a waiting word names the term it opens. -/
def openTerm (p : Parser) (position : Nat) (s : State) : State :=
  let name := match s.slot with
    | .word text => some text
    | _ => none
  { outer := s.frame :: s.outer
    frame := ⟨name, #[], position⟩
    slot := .vacant
    captures := p.capture name position s.captures }

/-- A `)`: the term is finished and becomes an argument of the enclosing one. -/
def closeTerm (p : Parser) (position : Nat) (s : State) : Except Error State := do
  let s ← p.flush s
  match s.outer with
  | [] => throw (.unmatchedParenthesis position)
  | parent :: outer =>
    return { s with
      outer := outer
      frame := parent.push s.frame.toNode
      captures := settle s.frame.openedAt s.frame.args.toList s.captures }

/-- A `,`: the argument before it is complete. -/
def separate (p : Parser) (position : Nat) (s : State) : Except Error State :=
  match s.slot with
  -- A finished group is an argument already, and a comma at the front is let pass.
  | .vacant => return { s with slot := .separated }
  | .separated =>
    if p.dialect.emptyArguments then
      return { s with frame := s.frame.push (.value p.dialect.emptyValue) }
    else throw (.emptyValue position)
  | .word text => do
    let n ← p.convert text
    return { s with frame := s.frame.push n, slot := .separated }

/-- A `&` or a `|`: the group takes its name, unless it has another one.  A gap
after a comma stays a gap. -/
def conjoin (p : Parser) (name : String) (position : Nat) (s : State) : Except Error State :=
  if s.frame.name.any (· != name) then throw (.mixedConjunction position)
  else
    let s := { s with frame := { s.frame with name := some name } }
    match s.slot with
    | .word _ => p.flush s
    | _ => return s

/-- Read one token. -/
def step (p : Parser) (s : State) (l : Lexeme) : Except Error State :=
  match l.token with
  | .word text => return { s with slot := .word text }
  | .opening => return p.openTerm l.start s
  | .closing => p.closeTerm l.start s
  | .comma => p.separate l.start s
  | .ampersand => p.conjoin andName l.start s
  | .pipe => p.conjoin orName l.start s
  | .finish => return s

/-- The root of a tree: a nameless root is a conjunction, and a conjunction of a
single conjunction is that one. -/
def rootTerm (name : Option String) (args : List Node) : Term :=
  let name := name.getD andName
  match args with
  | [.term (some inner) innerArgs] =>
    if name = andName ∧ inner = andName then ⟨some andName, innerArgs⟩ else ⟨some name, args⟩
  | _ => ⟨some name, args⟩

/-- The end of the text: every term has to be closed. -/
def finish (p : Parser) (s : State) : Except Error (Term × List Clause) := do
  -- The innermost of the open terms is the one that is reported.
  if !s.outer.isEmpty then throw (.unmatchedParenthesis s.frame.openedAt)
  let s ← p.flush s
  return (rootTerm s.frame.name s.frame.args.toList, s.captures.map (·.clause))

/-- Read expanded text.  An error before a foreign character comes first. -/
def runExpanded (p : Parser) (text : String) : Except Error (Term × List Clause) := do
  let scan := Token.scan text
  let s ← scan.lexemes.foldlM p.step State.start
  match scan.error? with
  | some e => throw e
  | none => p.finish s

/-- The tree of a text and its clauses, in the order in which they open. -/
def run (p : Parser) (text : String) : Except Error (Term × List Clause) :=
  p.runExpanded (p.dialect.expand text)

/-- The tree of a text. -/
def parse (p : Parser) (text : String) : Except Error Term :=
  (p.run text).map (·.1)

/-- The parser of full queries. -/
def queries : Parser where
  dialect := .queries

end Parser

end ResourceQuery
