import ResourceQuery.Json.Basic
import ResourceQuery.Term

/-!
# JSON views of values and trees

Values that JSON has no type for take the shapes of extended JSON: a document
with one `$`-key.

## Main definitions

* `Value.toJson`, `Document.toJson`.
* `Node.toJson`, `Term.toJson`: a term is a name with its arguments.
-/

namespace ResourceQuery

/-- The JSON of a double; a NaN and the infinities are named by their texts. -/
def Binary64.toJson (x : Binary64) : Json :=
  if x.isFinite then .float x
  else .object [("$numberDouble", .string (Number.floatText Json.floatLayout x))]

/-- The JSON of a number. -/
def Number.toJson : Number → Json
  | int n => .int n.toInt
  | float x => x.toJson

/-- The JSON of a pattern. -/
def Pattern.toJson (p : Pattern) : Json :=
  .object [("$regularExpression",
    .object [("pattern", .string p.source), ("options", .string p.flags)])]

namespace Value

mutual

/-- The JSON of a value. -/
def toJson : Value → Json
  | null => .null
  | undefined => .object [("$undefined", .bool true)]
  | bool b => .bool b
  | number n => n.toJson
  | string s => .string s
  | date t => .object [("$date", .int t.millis)]
  | pattern p => p.toJson
  | array items => .array (toJsonList items)
  | object fields => Json.ofEntries (toJsonFields fields)
  | host h => .string h.text

/-- The JSON of each of some values. -/
def toJsonList : List Value → List Json
  | [] => []
  | v :: vs => toJson v :: toJsonList vs

/-- The entries of a document in JSON. -/
def toJsonFields : List (String × Value) → List (String × Json)
  | [] => []
  | (k, v) :: fs => (k, toJson v) :: toJsonFields fs

end

end Value

/-- The JSON of a document: of a repeated key the last value is kept. -/
def Document.toJson (d : Document) : Json := Value.toJson (.object d)

/-- The JSON of a term with its arguments in JSON. -/
def Json.ofTerm (name : Option String) (args : List Json) : Json :=
  .object [("name", match name with
    | some n => .string n
    | none => .null), ("args", .array args)]

namespace Node

mutual

/-- The JSON of a node. -/
def toJson : Node → Json
  | term name args => Json.ofTerm name (toJsonList args)
  | list items => .array (toJsonList items)
  | value v => v.toJson

/-- The JSON of each of some nodes. -/
def toJsonList : List Node → List Json
  | [] => []
  | n :: ns => toJson n :: toJsonList ns

end

end Node

/-- The JSON of a term. -/
def Term.toJson (t : Term) : Json := t.toNode.toJson

end ResourceQuery
