/-!
# Double-precision numbers, exactly

A double is kept as its sign and its magnitude, the 63 bits below the sign.
The magnitude orders the non-negative doubles, so rounding is a search for one
natural number: `roundRatio` divides at the right scale, rounds the quotient to
even, and adds the scale's field, so that a carry out of the significand moves
into the exponent by itself.  All arithmetic is on natural numbers and integers.

## Main definitions

* `Binary64`: sign and magnitude, with `ofBits` and `toBits`.
* `Binary64.significand`, `Binary64.exponent`: the value is
  `significand * 2 ^ exponent`.
* `Binary64.ofDecimal`, `Binary64.ofInt`: the nearest double, ties to even.
* `Binary64.numEq`: equality of values (`0 = -0`, a NaN equals nothing).
* `Binary64.truncate`: the integer part, clamped to 64 bits.
-/

namespace ResourceQuery

/-- A double-precision number: its sign bit and the 63 bits below it. -/
structure Binary64 where
  negative : Bool
  magnitude : Nat
  magnitude_lt : magnitude < Nat.pow 2 63
deriving DecidableEq

namespace Binary64

/-- The magnitude of the infinities: larger ones are NaNs. -/
def infinityMagnitude : Nat := 0x7FF0000000000000

/-- The double with the given magnitude, an infinity if that is too large. -/
def ofMagnitude (negative : Bool) (magnitude : Nat) : Binary64 :=
  if h : magnitude < infinityMagnitude then
    ⟨negative, magnitude, Nat.lt_trans h (by decide)⟩
  else ⟨negative, infinityMagnitude, by decide⟩

/-- The double with a given bit pattern. -/
def ofBits (bits : UInt64) : Binary64 :=
  ⟨decide (Nat.pow 2 63 ≤ bits.toNat), bits.toNat % Nat.pow 2 63, Nat.mod_lt _ (by decide)⟩

/-- The bit pattern of a double. -/
def toBits (x : Binary64) : UInt64 :=
  UInt64.ofNat ((if x.negative then Nat.pow 2 63 else 0) + x.magnitude)

/-- Zero of either sign. -/
def zero (negative : Bool) : Binary64 := ⟨negative, 0, by decide⟩

/-- Infinity of either sign. -/
def infinity (negative : Bool) : Binary64 := ⟨negative, infinityMagnitude, by decide⟩

def isNaN (x : Binary64) : Bool := infinityMagnitude < x.magnitude

def isInfinite (x : Binary64) : Bool := x.magnitude == infinityMagnitude

def isFinite (x : Binary64) : Bool := x.magnitude < infinityMagnitude

def isZero (x : Binary64) : Bool := x.magnitude == 0

/-- Equality of the numbers: the two zeros are equal, a NaN equals nothing. -/
def numEq (x y : Binary64) : Bool :=
  !x.isNaN && x.magnitude == y.magnitude && (x.negative == y.negative || x.isZero)

/-! ## The value of a finite double -/

/-- The exponent field, read as 1 for zero and the subnormal numbers. -/
def exponentField (x : Binary64) : Nat := max 1 (x.magnitude / Nat.pow 2 52)

/-- The integer `m` of the value `m * 2 ^ e`. -/
def significand (x : Binary64) : Nat :=
  if x.magnitude < Nat.pow 2 52 then x.magnitude
  else x.magnitude % Nat.pow 2 52 + Nat.pow 2 52

/-- The exponent `e` of the value `m * 2 ^ e`. -/
def exponent (x : Binary64) : Int := (x.exponentField : Int) - 1075

/-! ## Rounding -/

/-- The quotient rounded to the nearest integer, a half to the even one. -/
def roundDiv (num den : Nat) : Nat :=
  let q := num / den
  let r := 2 * (num % den)
  if r > den ∨ (r = den ∧ q % 2 = 1) then q + 1 else q

/-- A quotient scaled by a power of two: `num / den / 2 ^ e`, as a fraction. -/
def scale (num den : Nat) (e : Int) : Nat × Nat :=
  if 0 ≤ e then (num, den * Nat.pow 2 e.toNat) else (num * Nat.pow 2 (-e).toNat, den)

/-- The exponent that gives a positive quotient 53 significant bits, but not
below that of the subnormal numbers. -/
def scaleExponent (num den : Nat) : Int :=
  let low := (num.log2 : Int) - den.log2 - 53
  let (n, d) := scale num den low
  -- The logarithms leave one bit open, which the quotient at the lower scale decides.
  max (-1074) (if n < Nat.pow 2 53 * d then low else low + 1)

/-- The magnitude of the double nearest to `num / den`, a tie going to the even
significand. -/
def roundRatio (num den : Nat) : Nat :=
  if num = 0 then 0
  else
    let e := scaleExponent num den
    let (n, d) := scale num den e
    -- A quotient rounded up to the next power of two carries into the exponent field.
    (e + 1074).toNat * Nat.pow 2 52 + roundDiv n d

/-- The double nearest to `num / den`. -/
def ofRatio (negative : Bool) (num den : Nat) : Binary64 :=
  ofMagnitude negative (roundRatio num den)

/-- The double nearest to `digits * 10 ^ e`.  An exponent so large or so small
that the digits cannot matter is answered without computing the power. -/
def ofDecimal (negative : Bool) (digits : Nat) (e : Int) : Binary64 :=
  if digits = 0 then zero negative
  else if 310 ≤ e then infinity negative
  else if e + digits.log2 < -344 then zero negative
  else if 0 ≤ e then ofRatio negative (digits * Nat.pow 10 e.toNat) 1
  else ofRatio negative digits (Nat.pow 10 (-e).toNat)

/-- The double nearest to an integer. -/
def ofInt (n : Int) : Binary64 :=
  ofRatio (decide (n < 0)) n.natAbs 1

/-! ## The integer part -/

/-- The integer part of the absolute value of a finite double. -/
def wholePart (x : Binary64) : Nat :=
  if 0 ≤ x.exponent then x.significand * Nat.pow 2 x.exponent.toNat
  else x.significand / Nat.pow 2 (-x.exponent).toNat

/-- The integer part of a finite double, clamped to the 64-bit range. -/
def truncate (x : Binary64) : Int64 :=
  let whole := x.wholePart
  if x.negative then Int64.ofInt (-(min whole (Nat.pow 2 63) : Nat))
  else Int64.ofInt (min whole (Nat.pow 2 63 - 1) : Nat)

end Binary64

end ResourceQuery
