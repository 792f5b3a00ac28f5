import ResourceQuery.Shorthand.EncodedOperator
import ResourceQuery.Shorthand.InfixOperator
import ResourceQuery.Shorthand.SlashedList
import ResourceQuery.Value

/-!
# Dialects

A dialect says which shorthand query text may use and how its gaps and bare words
are read.

## Main definitions

* `Dialect`: the choices, with their defaults.
* `Dialect.queries`: the dialect of full queries.
* `Dialect.expand`: the text with its shorthand expanded.
-/

namespace ResourceQuery

/-- The choices that fix how query text is read. -/
structure Dialect where
  /-- Percent-encoded comparison signs are operators. -/
  encodedOperators : Bool := false
  /-- `a=b`, `a<b` and `a=name=b` are terms. -/
  infixOperators : Bool := true
  /-- `a/b/c` is a list. -/
  slashedLists : Bool := false
  /-- `a,,b` has an argument between the commas. -/
  emptyArguments : Bool := false
  /-- The value of such an argument. -/
  emptyValue : Value := .string ""
  /-- The converter of words that name none. -/
  defaultConverter : String := "auto"
  /-- The names of the terms that are collected as clauses. -/
  clauseNames : List String := []

namespace Dialect

/-- The clauses of a full query. -/
def queryClauses : List String := ["select", "exclude", "sort", "limit"]

/-- The dialect of full queries: all shorthand, and the clauses collected. -/
def queries : Dialect where
  encodedOperators := true
  slashedLists := true
  clauseNames := queryClauses

/-- Expand the shorthand of a text: encoded operators first, then slashed lists,
then infix operators. -/
def expand (d : Dialect) (text : String) : String :=
  let text := if d.encodedOperators then Shorthand.decodeOperators text else text
  let text := if d.slashedLists then Shorthand.expandSlashes text else text
  if d.infixOperators then Shorthand.expandInfix text else text

end Dialect

end ResourceQuery
