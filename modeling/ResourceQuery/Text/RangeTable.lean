/-!
# Tables of character ranges

A set of characters given as ascending ranges.  The tables of the library are
written as numbers in base 36 with blanks between them: the gap before a range
and its length, in turn.

## Main definitions

* `RangeTable`, `RangeTable.contains`.
* `RangeTable.ofLines`: a table from its text.
-/

namespace ResourceQuery

/-- Ranges of code points, first and last included. -/
abbrev RangeTable := List (Nat × Nat)

namespace RangeTable

/-- The character is in one of the ranges. -/
def contains (t : RangeTable) (c : Char) : Bool :=
  t.any fun r => r.1 ≤ c.toNat && c.toNat ≤ r.2

/-- The value of a digit in base 36. -/
def digitValue (c : Char) : Nat :=
  if c.isDigit then c.toNat - 48 else c.toNat - 87

/-- The numbers of a text; `pending` is the number under way. -/
def numbersFrom (pending : Option Nat) : List Char → List Nat
  | [] => pending.toList
  | c :: cs =>
    if c = ' ' then pending.toList ++ numbersFrom none cs
    else numbersFrom (some (36 * pending.getD 0 + digitValue c)) cs

/-- The ranges of gaps and lengths, starting at a code point. -/
def ofGaps (start : Nat) : List Nat → RangeTable
  | gap :: length :: rest =>
    (start + gap, start + gap + length - 1) :: ofGaps (start + gap + length) rest
  | _ => []

/-- The table written on some lines. -/
def ofLines (lines : List String) : RangeTable :=
  ofGaps 0 (lines.flatMap fun line => numbersFrom none line.toList)

end RangeTable

end ResourceQuery
