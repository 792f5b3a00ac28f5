import ResourceQuery.Pattern.Escape

/-!
# Pieces of a regular expression

A piece is an expression that has been read, together with what the limits on
expressions are about: how far it is nested and how much memory a search for it
takes.

## Main definitions

* `Pattern.Piece`: an expression with its depth and weight.
* `Pattern.Piece.concat`, `Pattern.Piece.choice`: pieces in a row, alternatives.
* `Pattern.Count`, `Pattern.Piece.repeated`: repetition.
* `Pattern.Piece.withinLimits`: the piece can be searched for.
-/

namespace ResourceQuery

namespace Pattern

/-- An expression that has been read. -/
structure Piece where
  regex : Regex
  /-- How far the expression is nested. -/
  depth : Nat := 0
  /-- The memory that a search for it takes, in bytes, roughly. -/
  weight : Nat := 0
  /-- The expression never moves on. -/
  still : Bool := false
  /-- The piece can be repeated; a change of mode cannot. -/
  repeatable : Bool := true

/-- How often something is repeated. -/
inductive Count where
  | star
  | plus
  | optional
  | exactly (n : Nat)
  | atLeast (n : Nat)
  | between (low high : Nat)

namespace Piece

/-- The memory of one state of the search. -/
def stateWeight : Nat := 32

/-- The piece without an effect. -/
def empty : Piece := { regex := .empty, still := true }

/-- A change of mode. -/
def modeChange : Piece := { empty with repeatable := false }

/-- A character of a set. -/
def ofSet (s : CharSet) : Piece :=
  { regex := .oneOf s.contains, depth := s.depth, weight := stateWeight + s.weight }

/-- A condition on a place. -/
def ofLook (holds : Look) : Piece :=
  { regex := .look holds, weight := stateWeight, still := true }

/-- A character for itself, or in either case in the mode that ignores it. -/
def ofChar (mode : Mode) (c : Char) : Piece :=
  if mode.ignoreCase then
    let variants := mode.variants c
    { regex := .oneOf variants.contains, weight := 2 * stateWeight * c.utf8Size }
  else
    { regex := .oneOf (· == c), weight := stateWeight * c.utf8Size }

/-- What an escape stands for. -/
def ofAtom (mode : Mode) : Atom → Piece
  | .literal c => ofChar mode c
  | .set s => ofSet s
  | .look holds => ofLook holds

/-- One piece after another. -/
def append (p q : Piece) : Piece :=
  { regex := .seq p.regex q.regex
    depth := max p.depth q.depth
    weight := p.weight + q.weight
    still := p.still && q.still }

/-- One piece or another. -/
def orElse (p q : Piece) : Piece :=
  { regex := .alt p.regex q.regex
    depth := max p.depth q.depth
    weight := p.weight + q.weight + stateWeight
    still := p.still && q.still }

/-- One nesting level more. -/
def deeper (p : Piece) : Piece :=
  { p with depth := p.depth + 1 }

/-- The pieces of a list, given last first, in a row. -/
def concat : List Piece → Piece
  | [] => empty
  | [p] => p
  | p :: ps => (ps.foldl (fun later earlier => append earlier later) p).deeper

/-- The alternatives of a list, given last first. -/
def choice : List Piece → Piece
  | [] => empty
  | [p] => p
  | p :: ps => (ps.foldl (fun later earlier => orElse earlier later) p).deeper

/-- A group around a piece. -/
def grouped (p : Piece) : Piece :=
  { p with depth := p.depth + 1, weight := p.weight + 2 * stateWeight, repeatable := true }

/-- A piece that is repeated.  More rounds than one of a piece that never moves
on are of no use, and take no memory. -/
def repeated (p : Piece) (count : Count) : Piece :=
  let rounds (n : Nat) := if p.still then min n 1 else n
  let result (regex : Regex) (copies : Nat) : Piece :=
    { p with
      regex := regex
      depth := p.depth + 1
      weight := rounds copies * p.weight + stateWeight }
  match count with
  | .star => result (.star p.regex) 1
  | .plus => result p.regex.plus 1
  | .optional => result p.regex.optional 1
  | .exactly n => result (.times p.regex (rounds n)) n
  | .atLeast n => result (p.regex.atLeast (rounds n)) (max n 1)
  | .between low high => result (p.regex.between (rounds low) (rounds high)) high

/-- The deepest nesting and the largest weight that are accepted. -/
def withinLimits (p : Piece) : Bool :=
  p.depth ≤ 250 && p.weight ≤ 10 * 1024 * 1024

end Piece

end Pattern

end ResourceQuery
