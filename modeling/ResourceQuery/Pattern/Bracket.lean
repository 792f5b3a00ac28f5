import ResourceQuery.Pattern.Escape

/-!
# Bracket expressions

A class in square brackets is a union of characters, ranges, escapes and further
classes, and classes can be combined by `&&`, `--` and `~~`, from left to right.
The reader keeps the open brackets on a stack and works off one item at a time.

## Main definitions

* `Pattern.Bracket`: a bracket that has not been closed yet.
* `Pattern.bracket?`: the set of a bracket expression.
-/

namespace ResourceQuery

namespace Pattern

/-- The operators between classes. -/
inductive SetOperator where
  | intersection
  | difference
  | symmetricDifference

/-- Membership in the combination, from membership in the operands. -/
def SetOperator.holds : SetOperator → Bool → Bool → Bool
  | intersection => fun a b => a && b
  | difference => fun a b => a && !b
  | symmetricDifference => fun a b => a != b

/-- A bracket that has not been closed yet. -/
structure Bracket where
  /-- The complement is meant. -/
  negated : Bool
  /-- Nothing but hyphens has been read: they and a `]` that comes first are
  characters. -/
  atStart : Bool := true
  /-- An operator that waits for its right operand, with its left one. -/
  pending : Option (SetOperator × CharSet) := none
  /-- The items since the last operator, last first. -/
  items : List CharSet := []

namespace Bracket

/-- The union of the items. -/
def itemsUnion (b : Bracket) : CharSet :=
  match b.items with
  | [] => .nothing
  | [s] => s
  | s :: ss => (ss.foldl (fun u t => t.union u) s).deeper

/-- What has been read of the bracket.  The operands of an operator are closed
under case first, in the mode that ignores it. -/
def operand (mode : Mode) (b : Bracket) : CharSet :=
  let right := b.itemsUnion
  match b.pending with
  | none => right
  | some (op, left) =>
    let close (s : CharSet) := if mode.ignoreCase then s.closeUnder mode.variants else s
    ((close left).combine op.holds (close right)).deeper

/-- The set of a bracket that is closed now. -/
def close? (mode : Mode) (b : Bracket) : Option CharSet :=
  let s := b.operand mode
  let s := if mode.ignoreCase then s.closeUnder mode.variants else s
  if b.negated then if mode.unicode then some s.complement.deeper else none
  else some s.deeper

/-- The bracket with one more item. -/
def add (b : Bracket) (s : CharSet) : Bracket :=
  { b with items := s :: b.items }

/-- The bracket after an operator. -/
def apply (mode : Mode) (b : Bracket) (op : SetOperator) : Bracket :=
  { b with atStart := false, pending := some (op, b.operand mode), items := [] }

/-- Start a bracket after its `[`; a `^` negates it. -/
def start (mode : Mode) (cs : List Char) : Bracket × List Char :=
  match mode.skip cs with
  | '^' :: rest => ({ negated := true }, rest)
  | cs => ({ negated := false }, cs)

end Bracket

/-! ## Items -/

/-- The set of an item; a condition on a place is none. -/
def Atom.set? (mode : Mode) : Atom → Option CharSet
  | .literal c => if mode.unicode || c.toNat < 128 then some (.single c) else none
  | .set s => some s
  | .look _ => none

/-- A character or an escape. -/
def bracketAtom? (mode : Mode) : List Char → Option (Atom × List Char)
  | [] => none
  | '\\' :: rest => escape? mode rest
  | c :: rest => some (.literal c, rest)

/-- A range goes from one character to another that does not come before it. -/
def rangeSet? (mode : Mode) : Atom → Atom → Option CharSet
  | .literal first, .literal last =>
    if first ≤ last && (mode.unicode || last.toNat < 128) then some (.range first last) else none
  | _, _ => none

/-- An item, or a range if a hyphen follows that neither ends the class nor
starts the operator `--`. -/
def bracketItem? (mode : Mode) (cs : List Char) : Option (CharSet × List Char) := do
  let (first, rest) ← bracketAtom? mode cs
  match mode.skip rest with
  | [] => none
  | '-' :: rest' =>
    match mode.skip rest' with
    | [] => none
    | ']' :: _ | '-' :: _ => return (← first.set? mode, mode.skip rest)
    | cs =>
      let (last, rest) ← bracketAtom? mode cs
      return (← rangeSet? mode first last, rest)
  | rest => return (← first.set? mode, rest)

/-- The class `:name:]` after a `[` in a bracket; it is negated by a `^`. -/
def namedClass? (cs : List Char) : Option (CharSet × Bool × List Char) := do
  match cs with
  | ':' :: cs =>
    let (negated, cs) := match cs with
      | '^' :: rest => (true, rest)
      | cs => (false, cs)
    let name := cs.takeWhile (· != ':')
    match cs.drop name.length with
    | ':' :: ']' :: rest => return (← CharSet.ofAsciiName? name, negated, rest)
    | _ => none
  | _ => none

/-! ## The loop -/

/-- The result of one step: brackets are still open, or the last one is closed. -/
inductive BracketStep where
  | more (current : Bracket) (outer : List Bracket) (rest : List Char)
  | done (s : CharSet) (rest : List Char)

/-- Read one item, operator or bracket. -/
def bracketStep? (mode : Mode) (b : Bracket) (outer : List Bracket) (cs : List Char) :
    Option BracketStep :=
  match mode.skip cs with
  | [] => none
  | c :: rest =>
    let operator (op : SetOperator) : Option BracketStep :=
      some (.more (b.apply mode op) outer (rest.drop 1))
    if b.atStart && c == '-' then some (.more (b.add (.single '-')) outer rest)
    else if b.atStart && c == ']' && b.items.isEmpty then
      some (.more { b.add (.single ']') with atStart := false } outer rest)
    else
      let b := { b with atStart := false }
      match c, rest.head? with
      | '[', _ =>
        match namedClass? rest with
        | some (s, negated, rest) => do
          let s ← ({ negated, items := [s] } : Bracket).close? mode
          return .more (b.add { s with depth := 0 }) outer rest
        | none =>
          let (inner, rest) := Bracket.start mode rest
          some (.more inner (b :: outer) rest)
      | ']', _ => do
        let s ← b.close? mode
        match outer with
        | [] => return .done s rest
        | o :: os => return .more (o.add s) os rest
      | '&', some '&' => operator .intersection
      | '-', some '-' => operator .difference
      | '~', some '~' => operator .symmetricDifference
      | _, _ => do
        let (s, rest) ← bracketItem? mode (c :: rest)
        return .more (b.add s) outer rest

/-- Read items until the last bracket is closed.  Every step takes characters
away, which ends the loop. -/
def bracketFrom? (mode : Mode) (b : Bracket) (outer : List Bracket) (cs : List Char) :
    Option (CharSet × List Char) :=
  match bracketStep? mode b outer cs with
  | none => none
  | some (.done s rest) => some (s, rest)
  | some (.more b outer rest) =>
    if rest.length < cs.length then bracketFrom? mode b outer rest else none
termination_by cs.length

/-- The set of a bracket expression, after its `[`. -/
def bracket? (mode : Mode) (cs : List Char) : Option (CharSet × List Char) :=
  let (b, rest) := Bracket.start mode cs
  bracketFrom? mode b [] rest

end Pattern

end ResourceQuery
