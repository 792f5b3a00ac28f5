import ResourceQuery.Comparison

/-!
# Operators of filters

The terms that have a meaning in a filter, by their names.

## Main definitions

* `Operator`, `Operator.ofName?`.
-/

namespace ResourceQuery

/-- A term that compiles to a condition. -/
inductive Operator where
  | compare (c : Comparison)
  | conjunction
  | disjunction
  /-- None of the listed conditions holds. -/
  | noneOf
  /-- Each of the listed conditions is taken in its complement. -/
  | negation
  | existence
  | typeNumber
  | size
  | remainder
  | regex
  /-- Some element of a list meets the conditions. -/
  | element
  /-- Program text, run by the document store. -/
  | script
deriving DecidableEq

namespace Operator

/-- The names of the operators other than comparisons. -/
def named : List (String × Operator) :=
  [("and", conjunction), ("or", disjunction), ("nor", noneOf), ("not", negation),
    ("exists", existence), ("type", typeNumber), ("size", size), ("mod", remainder),
    ("regex", regex), ("elemMatch", element), ("where", script)]

/-- The operator of a name. -/
def ofName? (name : String) : Option Operator :=
  match Comparison.ofName? name with
  | some c => some (compare c)
  | none => named.lookup name

end Operator

end ResourceQuery
