/-!
# Regular expressions and searching

A regular expression relates the places of a text: the places before, between
and after its characters.  The search carries a set of places through the
expression, all starting places at once, so that it needs no backtracking and
its cost does not depend on how an expression is ambiguous.

A set of places is a list of truth values, one for each place: one more than the
text has characters.

## Main definitions

* `Regex`: expressions; what a character or a place has to satisfy is a predicate.
* `Regex.advance`: the places that an expression leads to from a set of places.
* `Regex.isMatch`: whether an expression occurs somewhere in a text.
-/

namespace ResourceQuery

/-- Regular expressions. -/
inductive Regex where
  /-- Stays where it is. -/
  | empty
  /-- One character that satisfies a predicate. -/
  | oneOf (holds : Char → Bool)
  /-- Stays where it is, if the characters before and after the place are right. -/
  | look (holds : Option Char → Option Char → Bool)
  /-- One expression after the other. -/
  | seq (first second : Regex)
  /-- One expression or the other. -/
  | alt (left right : Regex)
  /-- Any number of rounds. -/
  | star (body : Regex)
  /-- A fixed number of rounds. -/
  | times (body : Regex) (count : Nat)

/-- A set of places of a text: a truth value for each place. -/
abbrev Places := List Bool

namespace Places

/-- All places of a text. -/
def all (text : List Char) : Places :=
  List.replicate (text.length + 1) true

/-- The places in one of two sets. -/
def union (x y : Places) : Places :=
  List.zipWith (· || ·) x y

/-- The places one character further, past characters that satisfy a predicate. -/
def past (holds : Char → Bool) (text : List Char) (x : Places) : Places :=
  false :: List.zipWith (fun here c => here && holds c) x text

/-- The characters before and after each place. -/
def neighbours (before : Option Char) : List Char → List (Option Char × Option Char)
  | [] => [(before, none)]
  | c :: cs => (before, some c) :: neighbours (some c) cs

/-- The places of a set whose neighbours are right. -/
def lookAround (holds : Option Char → Option Char → Bool) (text : List Char) (x : Places) :
    Places :=
  List.zipWith (fun here n => here && holds n.1 n.2) x (neighbours none text)

/-- Add the places that further rounds lead to, for at most so many rounds or
until a round adds nothing. -/
def grow (round : Places → Places) : Nat → Places → Places
  | 0, x => x
  | n + 1, x =>
    let y := union x (round x)
    if y = x then x else grow round n y

/-- The places after so many rounds.  A round that changes nothing is the last
that needs to be made. -/
def iterate (round : Places → Places) : Nat → Places → Places
  | 0, x => x
  | n + 1, x =>
    let y := round x
    if y = x then x else iterate round n y

end Places

namespace Regex

/-- The places that an expression leads to from a set of places.  A star needs no
more rounds than the text has places: each round but the last adds one. -/
def advance (text : List Char) : Regex → Places → Places
  | empty, x => x
  | oneOf holds, x => Places.past holds text x
  | look holds, x => Places.lookAround holds text x
  | seq r s, x => advance text s (advance text r x)
  | alt r s, x => Places.union (advance text r x) (advance text s x)
  | star r, x => Places.grow (fun y => advance text r y) (text.length + 1) x
  | times r n, x => Places.iterate (fun y => advance text r y) n x

/-- The expression occurs somewhere in the text. -/
def isMatch (r : Regex) (text : List Char) : Bool :=
  (advance text r (Places.all text)).any id

/-- One or more rounds. -/
def plus (r : Regex) : Regex := seq r (star r)

/-- One round or none. -/
def optional (r : Regex) : Regex := alt r empty

/-- At least so many rounds. -/
def atLeast (r : Regex) (low : Nat) : Regex := seq (times r low) (star r)

/-- From so many to so many rounds. -/
def between (r : Regex) (low high : Nat) : Regex :=
  seq (times r low) (times (optional r) (high - low))

end Regex

end ResourceQuery
