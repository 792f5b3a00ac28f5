import ResourceQuery.Filter.Document
import ResourceQuery.Filter.Operator
import ResourceQuery.Filter.Policy
import ResourceQuery.Term

/-!
# Compiling a selector

A selector tree compiles to a filter document.  Compilation never fails: a term
with the wrong number or kind of arguments, an unknown term, and a term on a path
that is not allowed compile to nothing and are left out of the group around them.

The conditions inside `elemMatch` are about the elements of a list; their paths
are relative to the element and not subject to the policy.

## Main definitions

* `Filter.compile?`: the document of a node, if it has one.
* `Filter.compileAll`: the documents of the nodes that have one.
* `Filter.ofSelector`: the document of a selector.
-/

namespace ResourceQuery

namespace Filter

/-- The path a node names, if it is allowed. -/
def allowedPath? (allowed : String → Bool) (n : Node) : Option String :=
  n.path?.filter allowed

/-- A condition on the path a node names. -/
def onPath? (allowed : String → Bool) (field : Node) (condition : Value) : Option Document :=
  (allowedPath? allowed field).map fun path => [(path, condition)]

/-- An array with members. -/
def isNonemptyArray : Value → Bool
  | .array items => !items.isEmpty
  | _ => false

/-- The condition of a comparison with a value, if it can be compared so. -/
def comparisonCondition? (c : Comparison) (v : Value) : Option Value :=
  if c.takesArray && !isNonemptyArray v then none
  else
    match c.operatorKey? with
    | some key => some (.entry key v)
    | none => some v

/-- A field and an operand; further arguments are not looked at. -/
def comparison? (allowed : String → Bool) (c : Comparison) : List Node → Option Document
  | field :: operand :: _ =>
    (operand.toValue?.bind (comparisonCondition? c)).bind (onPath? allowed field)
  | _ => none

/-- A field and an optional truth value. -/
def existence? (allowed : String → Bool) : List Node → Option Document
  | [field] => onPath? allowed field (.entry "$exists" (.bool true))
  | [field, .value (.bool b)] => onPath? allowed field (.entry "$exists" (.bool b))
  | _ => none

/-- A field and a number. -/
def numberCondition? (allowed : String → Bool) (key : String) : List Node → Option Document
  | [field, .value v] => if v.isNumber then onPath? allowed field (.entry key v) else none
  | _ => none

/-- A field, a divisor and a remainder, the last two possibly in a list. -/
def remainder? (allowed : String → Bool) : List Node → Option Document
  | [field, .value divisor, .value rest] => condition field divisor rest
  | [field, .list [.value divisor, .value rest]] => condition field divisor rest
  | _ => none
where
  /-- The condition, if both values are numbers. -/
  condition (field : Node) (divisor rest : Value) : Option Document :=
    if divisor.isNumber && rest.isNumber then
      onPath? allowed field (.entry "$mod" (.array [divisor, rest]))
    else none

/-- A string or a pattern. -/
def isPatternText : Value → Bool
  | .string _ => true
  | .pattern _ => true
  | _ => false

/-- A field, a pattern and optional flags. -/
def regex? (allowed : String → Bool) : List Node → Option Document
  | [field, .value p] =>
    if isPatternText p then onPath? allowed field (.entry "$regex" p) else none
  | [field, .value p, .value (.string flags)] =>
    if isPatternText p then
      onPath? allowed field (.object [("$regex", p), ("$options", .string flags)])
    else none
  | _ => none

/-- A single string of program text, if that is allowed. -/
def script? (o : FilterOptions) : List Node → Option Document
  | [.value (.string code)] => if o.allowWhere then some [("$where", .string code)] else none
  | _ => none

/-- The conjunction of compiled members: merged into one document if `compact`,
otherwise under `$and` if there are several. -/
def conjunction? (compact : Bool) : List Document → Option Document
  | [] => none
  | [d] => some d
  | docs => if compact then some (Document.merge docs) else some [("$and", Document.listed docs)]

/-- Compiled members under a group's key. -/
def group? (key : String) (docs : List Document) : Option Document :=
  if docs.isEmpty then none else some [(key, Document.listed docs)]

/-- The conditions on the elements of a list. -/
def element? (allowed : String → Bool) (field : Node) (docs : List Document) : Option Document :=
  (conjunction? true docs).bind fun d => onPath? allowed field (.entry "$elemMatch" (.object d))

/-- The terms that a negation leaves out: groups and negations. -/
def isLogical (n : Node) : Bool :=
  [andName, orName, "nor", "not"].any n.isNamed

/-- A document with entries. -/
def nonempty? (d : Document) : Option Document :=
  if d.isEmpty then none else some d

mutual

/-- The document of a node, if it compiles to one. -/
def compile? (o : FilterOptions) (allowed : String → Bool) : Node → Option Document
  | .term (some name) args =>
    match Operator.ofName? name with
    | some (.compare c) => comparison? allowed c args
    | some .conjunction => conjunction? o.compactAnd (compileAll o allowed args)
    | some .disjunction => group? "$or" (compileAll o allowed args)
    | some .noneOf => group? "$nor" (compileAll o allowed args)
    | some .negation => nonempty? (negateAll o allowed [] args)
    | some .existence => existence? allowed args
    | some .typeNumber => numberCondition? allowed "$type" args
    | some .size => numberCondition? allowed "$size" args
    | some .remainder => remainder? allowed args
    | some .regex => regex? allowed args
    | some .element =>
      match args with
      | [] => none
      -- The policy is about paths of the document, so it is off among the conditions.
      | field :: conditions => element? allowed field (compileAll o (fun _ => true) conditions)
    | some .script => script? o args
    | none => none
  | .term none _ => none
  | .list _ => none
  | .value _ => none

/-- The documents of the nodes that compile to a non-empty one. -/
def compileAll (o : FilterOptions) (allowed : String → Bool) : List Node → List Document
  | [] => []
  | n :: ns =>
    match (compile? o allowed n).bind nonempty? with
    | some d => d :: compileAll o allowed ns
    | none => compileAll o allowed ns

/-- Add the complements of what the nodes compile to. -/
def negateAll (o : FilterOptions) (allowed : String → Bool) (d : Document) :
    List Node → Document
  | [] => d
  | n :: ns =>
    if isLogical n then negateAll o allowed d ns
    else negateAll o allowed (d.mergeNegated ((compile? o allowed n).getD [])) ns

end

/-- The document of a selector.  A conjunction at the root is always merged. -/
def ofSelector (o : FilterOptions) (t : Term) : Document :=
  if t.isNamed andName then
    (conjunction? true (compileAll o o.policy.isAllowed t.args)).getD []
  else (compile? o o.policy.isAllowed t.toNode).getD []

end Filter

end ResourceQuery
