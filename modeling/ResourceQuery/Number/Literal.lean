import ResourceQuery.Number.Basic
import ResourceQuery.Text.Percent

/-!
# Numeric literals

Two forms of literal denote numbers.  A decimal literal is an optional sign,
digits with an optional fraction (or a fraction alone) and an optional exponent;
without fraction and exponent it is an integer when it fits 64 bits, and a
double otherwise.  A hexadecimal literal is an optional sign, `0x` and digits,
and is always an integer: one whose digits exceed 63 bits is no number at all.

## Main definitions

* `Literal.decimal?`, `Literal.hexadecimal?`: the two readers.
* `Literal.number?`: either of them.
* `Literal.int64?`: a signed run of digits that fits 64 bits.
-/

namespace ResourceQuery

namespace Literal

/-- Split off a leading sign: is it a minus, and what follows. -/
def splitSign : List Char → Bool × List Char
  | '-' :: cs => (true, cs)
  | '+' :: cs => (false, cs)
  | cs => (false, cs)

/-- Split off the leading decimal digits. -/
def splitDigits (cs : List Char) : List Char × List Char :=
  cs.span Char.isDigit

/-- An integer with a sign given apart. -/
def withSign (negative : Bool) (n : Nat) : Int :=
  if negative then -(n : Int) else n

/-- An optional sign and one or more digits that denote a 64-bit integer. -/
def int64? (cs : List Char) : Option Int64 :=
  let (negative, digits) := splitSign cs
  if digits.isEmpty || !digits.all Char.isDigit then none
  else ResourceQuery.int64? (withSign negative (Nat.ofDigitChars 10 digits 0))

/-- The parts of a decimal literal. -/
structure Parts where
  negative : Bool
  whole : List Char
  /-- The digits after the point, if there is a point. -/
  fraction : Option (List Char)
  exponent : Option Int

/-- Read an exponent mark with its digits, and nothing after them. -/
def exponent? : List Char → Option Int
  | e :: cs =>
    if e = 'e' ∨ e = 'E' then
      let (negative, digits) := splitSign cs
      if digits.isEmpty || !digits.all Char.isDigit then none
      else some (withSign negative (Nat.ofDigitChars 10 digits 0))
    else none
  | [] => none

/-- Read what follows the digits of a decimal literal: an exponent or nothing. -/
def tail? (parts : Parts) : List Char → Option Parts
  | [] => some parts
  | cs => (exponent? cs).map fun e => { parts with exponent := some e }

/-- Take a decimal literal apart. -/
def parts? (text : List Char) : Option Parts :=
  let (negative, cs) := splitSign text
  let (whole, rest) := splitDigits cs
  match rest with
  | '.' :: rest =>
    let (fraction, rest) := splitDigits rest
    if whole.isEmpty && fraction.isEmpty then none
    else tail? ⟨negative, whole, some fraction, none⟩ rest
  | rest => if whole.isEmpty then none else tail? ⟨negative, whole, none, none⟩ rest

/-- The double nearest to a decimal literal. -/
def Parts.toBinary64 (p : Parts) : Binary64 :=
  let fraction := p.fraction.getD []
  Binary64.ofDecimal p.negative (Nat.ofDigitChars 10 (p.whole ++ fraction) 0)
    (p.exponent.getD 0 - fraction.length)

/-- The number of a decimal literal: an integer if it has neither point nor
exponent and fits, otherwise a double. -/
def Parts.toNumber (p : Parts) : Number :=
  match p.fraction, p.exponent with
  | none, none =>
    match ResourceQuery.int64? (withSign p.negative (Nat.ofDigitChars 10 p.whole 0)) with
    | some n => .int n
    | none => .float p.toBinary64
  | _, _ => .float p.toBinary64

/-- The number of a decimal literal. -/
def decimal? (text : List Char) : Option Number :=
  (parts? text).map Parts.toNumber

/-- The value of a run of hexadecimal digits. -/
def hexNat? (digits : List Char) : Option Nat :=
  digits.foldl (fun acc c => acc.bind fun n => (Percent.hexValue? c).map (16 * n + ·)) (some 0)

/-- The digits of a hexadecimal literal and its sign, if the text is one. -/
def hexParts? (text : List Char) : Option (Bool × Nat) :=
  let (negative, cs) := splitSign text
  match cs with
  | '0' :: x :: digits =>
    if (x = 'x' ∨ x = 'X') ∧ digits ≠ [] then (hexNat? digits).map (negative, ·) else none
  | _ => none

/-- The integer of a hexadecimal literal; its digits alone must fit. -/
def hexadecimal? (text : List Char) : Option Number :=
  match hexParts? text with
  | some (negative, n) =>
    if n < Nat.pow 2 63 then some (.int (Int64.ofInt (withSign negative n))) else none
  | none => none

/-- The number a text denotes, if it is a literal. -/
def number? (text : List Char) : Option Number :=
  match hexadecimal? text with
  | some n => some n
  | none => decimal? text

end Literal

end ResourceQuery
