import ResourceQuery.Number.Decimal

/-!
# Numbers

A number in a query is a 64-bit integer or a double.  The two kinds are kept
apart, so that `limit(10)` stays an integer, but compare by value: the integer 1
equals the double 1.0.

## Main definitions

* `Number`: an integer or a double, with `Number.numEq`.
* `Number.truncate?`: the integer part.
* `Number.plain`: decimal text without an exponent, whatever the size.
* `Number.canonical`: the text a query is written with.
* `Int64.ofInt?`: an integer, if it fits 64 bits.
-/

namespace ResourceQuery

/-- A 64-bit integer or a double. -/
inductive Number where
  | int (n : Int64)
  | float (x : Binary64)
deriving DecidableEq

/-- The 64-bit integer with a given value, if there is one. -/
def int64? (n : Int) : Option Int64 :=
  if Int64.minValue.toInt ≤ n ∧ n ≤ Int64.maxValue.toInt then some (Int64.ofInt n) else none

/-- The decimal text of an integer. -/
def integerText (n : Int) : String :=
  if n < 0 then String.ofList ('-' :: Nat.toDigits 10 n.natAbs)
  else String.ofList (Nat.toDigits 10 n.natAbs)

namespace Number

/-- The nearest double. -/
def toBinary64 : Number → Binary64
  | int n => Binary64.ofInt n.toInt
  | float x => x

/-- Equality by value; an integer meets a double as its nearest double. -/
def numEq : Number → Number → Bool
  | int m, int n => m == n
  | x, y => x.toBinary64.numEq y.toBinary64

/-- The integer part; an infinity and a NaN have none. -/
def truncate? : Number → Option Int64
  | int n => some n
  | float x => if x.isFinite then some x.truncate else none

/-- Doubles written without an exponent, a tie between two texts going up. -/
def plainLayout : NumberLayout where
  tie := .up
  isPositional _ := true
  keepsPoint := false

/-- Doubles written with an exponent outside `[1e-6, 1e21)`. -/
def canonicalLayout : NumberLayout where
  tie := .up
  isPositional d := d.digits = 0 || (-6 ≤ d.leadExponent && d.leadExponent < 21)
  keepsPoint := false

/-- A double's text in a layout that has no number for a NaN or an infinity. -/
def floatText (layout : NumberLayout) (x : Binary64) : String :=
  if x.isNaN then "NaN"
  else if x.isInfinite then if x.negative then "-Infinity" else "Infinity"
  else String.ofList (layout.render x)

/-- Decimal text without an exponent, for finite numbers. -/
def plain? : Number → Option String
  | int n => some (integerText n.toInt)
  | float x => if x.isFinite then some (floatText plainLayout x) else none

/-- The text a number is written with in a query. -/
def canonical : Number → String
  | int n => integerText n.toInt
  | float x => floatText canonicalLayout x

end Number

end ResourceQuery
