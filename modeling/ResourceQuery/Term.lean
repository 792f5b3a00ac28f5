import ResourceQuery.Value

/-!
# Terms

Query text denotes a tree.  Its nodes are named terms such as `eq(a,1)`, lists in
parentheses such as `(1,2,3)`, and values.  The groups `a&b` and `a|b` are terms
named `and` and `or`.

## Main definitions

* `Node`, `Term`: the tree; a `Term` is a name with arguments.
* `Node.eqv`, `Term.eqv`: equality, with values compared by `Value.eqv`.
* `Node.path?`: the field path a node names.
* `Node.toValue?`: a node without terms, as a value.
-/

namespace ResourceQuery

/-- A node of a query tree. -/
inductive Node where
  /-- A term; only a list under construction has no name. -/
  | term (name : Option String) (args : List Node)
  /-- A list in parentheses. -/
  | list (items : List Node)
  | value (v : Value)

instance : Inhabited Node := ⟨.value .null⟩

/-- A name with its arguments. -/
structure Term where
  name : Option String
  args : List Node

/-- The name of the conjunction. -/
def andName : String := "and"

/-- The name of the disjunction. -/
def orName : String := "or"

namespace Node

/-- The term at a node. -/
def term? : Node → Option Term
  | term name args => some ⟨name, args⟩
  | _ => none

/-- The value at a node. -/
def value? : Node → Option Value
  | value v => some v
  | _ => none

def isTerm (n : Node) : Bool := n.term?.isSome

def isValue (n : Node) : Bool := n.value?.isSome

/-- The segment of a field path that a single value names. -/
def segment? (n : Node) : Option String :=
  n.value?.bind Value.pathSegment?

/-- The field path a node names: a value by itself, or a list of values joined
by dots, so that `(a,b,c)` names `a.b.c`. -/
def path? : Node → Option String
  | value v => v.pathSegment?
  | list items =>
    if items.isEmpty then none else (items.mapM segment?).map (String.intercalate ".")
  | term _ _ => none

mutual

/-- A node as a value, if there is no term in it. -/
def toValue? : Node → Option Value
  | value v => some v
  | list items => (toValues? items).map .array
  | term _ _ => none

/-- Nodes as values, if there is no term in them. -/
def toValues? : List Node → Option (List Value)
  | [] => some []
  | n :: ns =>
    match toValue? n, toValues? ns with
    | some v, some vs => some (v :: vs)
    | _, _ => none

end

mutual

/-- Equality of trees. -/
def eqv : Node → Node → Bool
  | term m as, term n bs => m == n && eqvList as bs
  | list as, list bs => eqvList as bs
  | value a, value b => a.eqv b
  | _, _ => false

/-- Equality of lists of trees. -/
def eqvList : List Node → List Node → Bool
  | [], [] => true
  | a :: as, b :: bs => eqv a b && eqvList as bs
  | _, _ => false

end

/-- A node that is a term of this name. -/
def isNamed (name : String) : Node → Bool
  | term n _ => n == some name
  | _ => false

end Node

namespace Term

/-- The term as a node. -/
def toNode (t : Term) : Node := .term t.name t.args

/-- Equality of terms. -/
def eqv (s t : Term) : Bool := s.toNode.eqv t.toNode

/-- The conjunction of some nodes. -/
def and (args : List Node) : Term := ⟨some andName, args⟩

def isNamed (t : Term) (name : String) : Bool := t.name == some name

/-- A group, `and` or `or`. -/
def isConjunction (t : Term) : Bool := t.isNamed andName || t.isNamed orName

end Term

end ResourceQuery
