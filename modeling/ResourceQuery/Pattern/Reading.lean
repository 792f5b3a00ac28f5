import ResourceQuery.Pattern.Bracket
import ResourceQuery.Pattern.Piece

/-!
# Reading regular expressions

The reader works through the source of an expression construct by construct.  Its
state holds the pieces of the branch under way, the finished branches and what
stood outside the open groups.

## Main definitions

* `Pattern.Reader`: the state.
* `Pattern.Reader.step?`: one construct.
* `Pattern.read?`: the piece that a source denotes.
-/

namespace ResourceQuery

namespace Pattern

/-- What stands outside an open group. -/
structure OpenGroup where
  /-- The mode that holds again after the group. -/
  mode : Mode
  branches : List Piece
  items : List Piece

/-- The state of reading. -/
structure Reader where
  mode : Mode
  /-- The finished branches of the innermost group, last first. -/
  branches : List Piece := []
  /-- The pieces of the branch under way, last first. -/
  items : List Piece := []
  /-- The open groups, innermost first. -/
  outer : List OpenGroup := []
  /-- The names of groups so far. -/
  names : List (List Char) := []

/-! ## Repetition -/

/-- A decimal number with blanks around it that fits 32 bits. -/
def repeatCount? (text : List Char) : Option Nat :=
  let digits := Text.trim text
  if digits.isEmpty || !digits.all Char.isDigit then none
  else
    let n := digits.foldl (fun value c => 10 * value + (c.toNat - 48)) 0
    if n < UInt32.size then some n else none

/-- The count that the text in braces denotes. -/
def countOfText? (text : List Char) : Option Count :=
  match CharSet.cutAt? [','] text with
  | none => (repeatCount? text).map .exactly
  | some (low, high) => do
    let low ← repeatCount? low
    if high.isEmpty then return .atLeast low
    let high ← repeatCount? high
    if low ≤ high then return .between low high else none

/-- Drop the mark that asks for the shortest run. -/
def dropLazyMark : List Char → List Char
  | '?' :: cs => cs
  | cs => cs

/-! ## Groups -/

/-- Read letters of modes up to the `)` or `:` that ends them: the mode they give,
whether there were any, and the text from their end on.  A hyphen, of which there
is at most one, switches off the modes after it. -/
def modeLetters? (mode : Mode) (seen : List Char) : List Char → Option (Mode × Bool × List Char)
  | [] => none
  | c :: cs =>
    if c = ':' ∨ c = ')' then
      if seen.head? = some '-' then none else some (mode, !seen.isEmpty, c :: cs)
    else if seen.contains c then none
    else if c = '-' then modeLetters? mode (c :: seen) cs
    else
      match mode.set? c (!seen.contains '-') with
      | some mode => modeLetters? mode (c :: seen) cs
      | none => none

/-- The characters of the names of groups. -/
def isGroupNameChar (first : Bool) (c : Char) : Bool :=
  c == '_' || Text.isAlphabetic c ||
    (!first && (c == '.' || c == '[' || c == ']' || Text.isNumeric c))

/-- The name of a group up to its `>`. -/
def groupName? (cs : List Char) : Option (List Char × List Char) :=
  let name := cs.takeWhile (· != '>')
  match name, cs.drop name.length with
  | c :: rest, _ :: after =>
    if isGroupNameChar true c && rest.all (isGroupNameChar false) then some (name, after) else none
  | _, _ => none

namespace Reader

/-- Add a piece to the branch under way. -/
def push (r : Reader) (p : Piece) : Reader :=
  { r with items := p :: r.items }

/-- Repeat the last piece of the branch. -/
def repeatLast? (r : Reader) (count : Count) : Option Reader :=
  match r.items with
  | p :: ps => if p.repeatable then some { r with items := p.repeated count :: ps } else none
  | [] => none

/-- End the branch. -/
def endBranch (r : Reader) : Reader :=
  { r with branches := Piece.concat r.items :: r.branches, items := [] }

/-- The alternatives of the innermost group. -/
def contents (r : Reader) : Piece :=
  Piece.choice (Piece.concat r.items :: r.branches)

/-- Open a group with a mode. -/
def openGroup (r : Reader) (mode : Mode) : Reader :=
  { r with
    mode := mode
    branches := []
    items := []
    outer := ⟨r.mode, r.branches, r.items⟩ :: r.outer }

/-- Close the innermost group. -/
def closeGroup? (r : Reader) : Option Reader :=
  match r.outer with
  | [] => none
  | g :: gs =>
    some { r with
      mode := g.mode
      branches := g.branches
      items := r.contents.grouped :: g.items
      outer := gs }

/-- Open a group with a name of its own. -/
def openNamed? (r : Reader) (cs : List Char) : Option (Reader × List Char) := do
  let (name, rest) ← groupName? cs
  if r.names.contains name then none
  else return ({ r.openGroup r.mode with names := name :: r.names }, rest)

/-- What a `(` starts: a group, a group with a name, a group with modes of its
own, or a change of mode.  Looking ahead and looking behind are refused. -/
def opening? (r : Reader) (cs : List Char) : Option (Reader × List Char) :=
  match cs with
  | '?' :: 'P' :: '<' :: rest => r.openNamed? rest
  | '?' :: '<' :: rest => r.openNamed? rest
  | '?' :: rest =>
    match modeLetters? r.mode [] rest with
    | some (mode, any, c :: rest) =>
      if c = ':' then some (r.openGroup mode, rest)
      else if any then some ({ r.push .modeChange with mode := mode }, rest)
      else none
    | _ => none
  | cs => some (r.openGroup r.mode, cs)

/-- The dot: any character but the ends of lines, or any character at all. -/
def dot? (mode : Mode) : Option Piece :=
  if !mode.unicode then none
  else if mode.dotAll then some (.ofSet ⟨fun _ => true, 400, 0⟩)
  else some (.ofSet ⟨fun c => c != '\n' && !(mode.crlf && c == '\r'), 400, 0⟩)

/-- The condition of `^`. -/
def startAnchor (mode : Mode) : Look :=
  if mode.multiline then Look.startOfLine mode.crlf else Look.startOfText

/-- The condition of `$`. -/
def endAnchor (mode : Mode) : Look :=
  if mode.multiline then Look.endOfLine mode.crlf else Look.endOfText

/-- Read one construct, which starts with a given character. -/
def step? (r : Reader) (c : Char) (rest : List Char) : Option (Reader × List Char) :=
  match c with
  | '(' => r.opening? (r.mode.skip rest)
  | ')' => r.closeGroup?.map (·, rest)
  | '|' => some (r.endBranch, rest)
  | '[' => (bracket? r.mode rest).map fun (s, rest) => (r.push (.ofSet s), rest)
  | '*' => (r.repeatLast? .star).map (·, dropLazyMark rest)
  | '+' => (r.repeatLast? .plus).map (·, dropLazyMark rest)
  | '?' => (r.repeatLast? .optional).map (·, dropLazyMark rest)
  | '\x7b' => do
    let (text, rest) ← r.mode.braced? rest
    let count ← countOfText? text
    return (← r.repeatLast? count, dropLazyMark (r.mode.skip rest))
  | '\\' => (escape? r.mode rest).map fun (a, rest) => (r.push (.ofAtom r.mode a), rest)
  | '.' => (dot? r.mode).map fun p => (r.push p, rest)
  | '^' => some (r.push (.ofLook (startAnchor r.mode)), rest)
  | '$' => some (r.push (.ofLook (endAnchor r.mode)), rest)
  | c => some (r.push (.ofChar r.mode c), rest)

/-- Read constructs to the end of the source.  No construct gives back more than
it was given, which ends the loop. -/
def run? (r : Reader) (cs : List Char) : Option Reader :=
  match r.mode.skip cs with
  | [] => some r
  | c :: rest =>
    match r.step? c rest with
    | none => none
    | some (r, rest') => if rest'.length < cs.length then run? r rest' else none
termination_by cs.length

end Reader

/-- The piece that a source denotes: all groups have to be closed at its end. -/
def read? (mode : Mode) (source : List Char) : Option Piece := do
  let r ← Reader.run? { mode } source
  if r.outer.isEmpty then return r.contents else none

end Pattern

end ResourceQuery
