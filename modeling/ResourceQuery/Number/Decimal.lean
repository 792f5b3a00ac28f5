import ResourceQuery.Number.Binary64

/-!
# Shortest decimals

The text of a double is decided in two steps.  `Decimal.shortest` picks the
digits: on coarser and finer decimal grids in turn it tries the two grid points
around the value and keeps the first that reads back as the same double, the
nearer one if both do.  A `NumberLayout` then decides where the point goes and
when an exponent is written.

Whatever `Decimal.shortest` returns reads back, because a candidate is kept only
after reading it; should no grid point be found the exact expansion of the
double is returned instead.

## Main definitions

* `Decimal`: `digits * 10 ^ exponent`.
* `Decimal.exact`, `Decimal.shortest`: the two expansions of a double.
* `Decimal.positional`, `Decimal.scientific`: the two notations.
* `NumberLayout`: a format's choices; `NumberLayout.render` applies them.
-/

namespace ResourceQuery

/-- The decimal number `digits * 10 ^ exponent`. -/
structure Decimal where
  digits : Nat
  exponent : Int
deriving DecidableEq, Repr

/-- What to do when two candidates are equally near. -/
inductive Tie where
  | up
  | even
deriving DecidableEq

namespace Decimal

/-- The absolute value of a finite double, digit for digit. -/
def exact (x : Binary64) : Decimal :=
  if 0 ≤ x.exponent then ⟨x.significand * Nat.pow 2 x.exponent.toNat, 0⟩
  else ⟨x.significand * Nat.pow 5 (-x.exponent).toNat, x.exponent⟩

/-- Reading the digits gives this double, up to its sign. -/
def readsBack (x : Binary64) (d : Decimal) : Bool :=
  Binary64.ofDecimal x.negative d.digits d.exponent == x

/-- The absolute value of a double in units of `10 ^ k`: a numerator and a
denominator. -/
def inUnits (x : Binary64) (k : Int) : Nat × Nat :=
  let num := x.significand * Nat.pow 2 x.exponent.toNat
  let den := Nat.pow 2 (-x.exponent).toNat
  (num * Nat.pow 10 (-k).toNat, den * Nat.pow 10 k.toNat)

/-- The candidate on the grid of multiples of `10 ^ k`: of the two neighbours of
the value that read back, the nearer. -/
def onGrid (tie : Tie) (x : Binary64) (k : Int) : Option Decimal :=
  let (num, den) := inUnits x k
  let below : Decimal := ⟨num / den, k⟩
  let above : Decimal := ⟨num / den + 1, k⟩
  match readsBack x below, readsBack x above with
  | false, false => none
  | true, false => some below
  | false, true => some above
  | true, true =>
    -- Twice the remainder against the denominator: which neighbour is nearer.
    let twice := 2 * (num % den)
    if twice < den then some below
    else if den < twice then some above
    else match tie with
      | .up => some above
      | .even => if num / den % 2 = 0 then some below else some above

/-- The first candidate on the grids `10 ^ k`, `10 ^ (k - 1)`, …, of which
`steps` are tried. -/
def onGrids (tie : Tie) (x : Binary64) : Nat → Int → Option Decimal
  | 0, _ => none
  | steps + 1, k =>
    match onGrid tie x k with
    | some d => some d
    | none => onGrids tie x steps (k - 1)

/-- A power of ten above the value: the coarsest grid worth trying. -/
def coarsestGrid (x : Binary64) : Int :=
  ((x.significand.log2 + 1 : Nat) + x.exponent) * 30103 / 100000 + 1

/-- Drop the trailing zeros of the digits; at most `steps` of them. -/
def dropZeros : Nat → Decimal → Decimal
  | 0, d => d
  | steps + 1, d =>
    if d.digits % 10 = 0 ∧ d.digits ≠ 0 then dropZeros steps ⟨d.digits / 10, d.exponent + 1⟩
    else d

/-- The fewest digits that read back as the double, and among those the nearest
to it.  Seventeen digits always do, so twenty-four grids are enough. -/
def shortest (tie : Tie) (x : Binary64) : Decimal :=
  if x.isZero then ⟨0, 0⟩
  else dropZeros 2 ((onGrids tie x 24 (coarsestGrid x)).getD (exact x))

/-- The exponent of the first digit. -/
def leadExponent (d : Decimal) : Int :=
  d.exponent + (Nat.toDigits 10 d.digits).length - 1

/-- Notation without an exponent: `1500`, `1.5`, `0.0015`. -/
def positional (d : Decimal) : List Char :=
  let digits := Nat.toDigits 10 d.digits
  if 0 ≤ d.exponent then digits ++ List.replicate d.exponent.toNat '0'
  else
    let places := (-d.exponent).toNat
    if places < digits.length then
      digits.take (digits.length - places) ++ '.' :: digits.drop (digits.length - places)
    else '0' :: '.' :: (List.replicate (places - digits.length) '0' ++ digits)

/-- The text of an exponent: its sign is always written. -/
def exponentText (e : Int) : List Char :=
  (if e < 0 then '-' else '+') :: Nat.toDigits 10 e.natAbs

/-- Notation with an exponent: `1e+21`, `1.5e-7`. -/
def scientific (d : Decimal) : List Char :=
  match Nat.toDigits 10 d.digits with
  | [] => []
  | [c] => c :: 'e' :: exponentText d.leadExponent
  | c :: cs => c :: '.' :: (cs ++ 'e' :: exponentText d.leadExponent)

end Decimal

/-- How a format writes its doubles. -/
structure NumberLayout where
  /-- The way ties between two shortest decimals go. -/
  tie : Tie
  /-- Is the number with this shortest decimal written without an exponent? -/
  isPositional : Decimal → Bool
  /-- Is `.0` added to a positional text without a point? -/
  keepsPoint : Bool

namespace NumberLayout

/-- The text of the absolute value of a finite double. -/
def unsigned (layout : NumberLayout) (x : Binary64) : List Char :=
  let d := Decimal.shortest layout.tie x
  if layout.isPositional d then
    if layout.keepsPoint && (0 ≤ d.exponent) then d.positional ++ ['.', '0'] else d.positional
  else d.scientific

/-- The text of a finite double, with a sign for every negative one. -/
def render (layout : NumberLayout) (x : Binary64) : List Char :=
  if x.negative then '-' :: layout.unsigned x else layout.unsigned x

end NumberLayout

end ResourceQuery
