import ResourceQuery.Number.Basic
import ResourceQuery.Pattern.Basic
import ResourceQuery.Time.Instant

/-!
# Values

The typed values that the words of a query denote, and the documents that
compiled filters are made of.  A host program may add values of its own; such a
value is known by its display text and by how it wants to be written.

## Main definitions

* `Value`, `Document`, `HostValue`.
* `Value.eqv`: equality of values, with numbers compared by value.
* `Value.pathSegment?`, `Value.truncate?`, `Value.text?`: readings of a value.
* `Value.isOperatorDocument`: a document of `$`-operators.
-/

namespace ResourceQuery

/-- How a host's value is written in a query. -/
inductive HostForm where
  /-- The display text, encoded. -/
  | plain
  /-- A converter's name, a colon and the encoded display text. -/
  | tagged (tag : String)
  /-- The display text as it is. -/
  | verbatim
deriving DecidableEq

/-- A value that a host program provides. -/
structure HostValue where
  text : String
  form : HostForm
deriving DecidableEq

/-- A typed value. -/
inductive Value where
  | null
  | undefined
  | bool (b : Bool)
  | number (n : Number)
  | string (s : String)
  | date (t : Instant)
  | pattern (p : Pattern)
  | array (items : List Value)
  | object (fields : List (String × Value))
  | host (h : HostValue)

/-- An ordered list of keys with their values. -/
abbrev Document := List (String × Value)

namespace Value

instance : Inhabited Value := ⟨null⟩

mutual

/-- Equality of values: numbers by value, host values by their display text, and
everything else part by part. -/
def eqv : Value → Value → Bool
  | null, null => true
  | undefined, undefined => true
  | bool a, bool b => a == b
  | number a, number b => a.numEq b
  | string a, string b => a == b
  | date a, date b => a == b
  | pattern a, pattern b => a == b
  | array a, array b => eqvList a b
  | object a, object b => eqvFields a b
  | host a, host b => a.text == b.text
  | _, _ => false

/-- Equality of lists of values. -/
def eqvList : List Value → List Value → Bool
  | [], [] => true
  | a :: as, b :: bs => eqv a b && eqvList as bs
  | _, _ => false

/-- Equality of documents: the same keys in the same order, with equal values. -/
def eqvFields : List (String × Value) → List (String × Value) → Bool
  | [], [] => true
  | (k, a) :: as, (l, b) :: bs => k == l && eqv a b && eqvFields as bs
  | _, _ => false

end

/-- The segment of a field path that a value names: a text or a finite number. -/
def pathSegment? : Value → Option String
  | string s => some s
  | number n => n.plain?
  | _ => none

/-- The integer part of a number. -/
def truncate? : Value → Option Int64
  | number n => n.truncate?
  | _ => none

/-- The double nearest to a number. -/
def toBinary64? : Value → Option Binary64
  | number n => some n.toBinary64
  | _ => none

/-- The text of a string. -/
def text? : Value → Option String
  | string s => some s
  | _ => none

def isNumber : Value → Bool
  | number _ => true
  | _ => false

end Value

/-- The keys of operators start with a dollar sign. -/
def isOperatorKey (key : String) : Bool :=
  key.toList.head? = some '$'

/-- A document that has keys, all of them operators. -/
def Document.isOperators (d : Document) : Bool :=
  !d.isEmpty && d.all fun e => isOperatorKey e.1

/-- A value that is a document of operators. -/
def Value.isOperatorDocument : Value → Bool
  | object fields => Document.isOperators fields
  | _ => false

end ResourceQuery
