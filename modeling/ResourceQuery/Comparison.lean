/-!
# Comparisons

The terms that compare a field with a value.  Most of them have an infix form in
query text, and all but equality have an operator in the document store.

## Main definitions

* `Comparison`, with `name` and `ofName?`.
* `Comparison.symbol?`, `Comparison.ofSymbol?`: the infix forms.
* `Comparison.operatorKey?`: the operator of the document store.
* `Comparison.takesArray`: comparisons with a list.
-/

namespace ResourceQuery

/-- A comparison of a field with a value. -/
inductive Comparison where
  | eq
  | ne
  | lt
  | le
  | gt
  | ge
  | isIn
  | notIn
  | all
deriving DecidableEq

namespace Comparison

/-- The name of the term. -/
def name : Comparison → String
  | eq => "eq"
  | ne => "ne"
  | lt => "lt"
  | le => "le"
  | gt => "gt"
  | ge => "ge"
  | isIn => "in"
  | notIn => "nin"
  | all => "all"

/-- Every comparison. -/
def every : List Comparison := [eq, ne, lt, le, gt, ge, isIn, notIn, all]

/-- The comparison of a name. -/
def ofName? (name : String) : Option Comparison :=
  every.find? fun c => c.name == name

/-- The infix form it is written with. -/
def symbol? : Comparison → Option String
  | eq => some "="
  | ne => some "!="
  | lt => some "<"
  | le => some "<="
  | gt => some ">"
  | ge => some ">="
  | isIn => some "=in="
  | notIn => some "=nin="
  | all => none

/-- The comparison of a plain symbol; equality has two. -/
def ofSymbol? (symbol : String) : Option Comparison :=
  if symbol = "=" then some eq
  else if symbol = "==" then some eq
  else if symbol = "!=" then some ne
  else if symbol = "<" then some lt
  else if symbol = "<=" then some le
  else if symbol = ">" then some gt
  else if symbol = ">=" then some ge
  else none

/-- The operator of the document store; equality is the bare value. -/
def operatorKey? : Comparison → Option String
  | eq => none
  | ne => some "$ne"
  | lt => some "$lt"
  | le => some "$lte"
  | gt => some "$gt"
  | ge => some "$gte"
  | isIn => some "$in"
  | notIn => some "$nin"
  | all => some "$all"

/-- Comparisons whose operand is a list with members. -/
def takesArray : Comparison → Bool
  | isIn => true
  | notIn => true
  | all => true
  | _ => false

@[simp] theorem ofName?_name (c : Comparison) : ofName? c.name = some c := by
  cases c <;> decide

end Comparison

end ResourceQuery
