import ResourceQuery.Comparison
import ResourceQuery.Converter.Basic
import ResourceQuery.Json.View
import ResourceQuery.Query.Basic

/-!
# Canonical text

Every value, term and query has one canonical text.  Comparisons are written in
infix form where their operands allow it, groups with `&` and `|`, and a string
that would be read as something else gets the prefix `string:`.

## Main definitions

* `TextStyle`: the encoding of strings, once or twice.
* `TextStyle.value`, `TextStyle.node`, `TextStyle.root`: the texts of parts.
* `TextStyle.query`: the text of a query, its clauses first.
-/

namespace ResourceQuery

/-- How canonical text is encoded. -/
structure TextStyle where
  /-- Percent-encode strings twice, for transports that decode once. -/
  encodeTwice : Bool := false

namespace TextStyle

/-- Encode a string as the style says. -/
def encode (style : TextStyle) (s : String) : String :=
  if style.encodeTwice then Percent.encode (Percent.encode s) else Percent.encode s

/-- The text denotes itself when no converter is named. -/
def isPlain (s : String) : Bool :=
  !s.isEmpty && match Converter.literal s with
    | .string t => t == s
    | _ => false

/-- The text of a string. -/
def string (style : TextStyle) (s : String) : String :=
  if isPlain s then style.encode s else "string:" ++ style.encode s

/-- The text of a pattern: its source, in slashes if it has flags or starts with
a slash itself. -/
def pattern (style : TextStyle) (p : Pattern) : String :=
  if p.flags.isEmpty && p.source.toList.head? != some '/' then "re:" ++ style.encode p.source
  else "re:" ++ style.encode p.shown

/-- The text of a host's value. -/
def host (style : TextStyle) (h : HostValue) : String :=
  match h.form with
  | .plain => style.encode h.text
  | .tagged tag => tag ++ ":" ++ style.encode h.text
  | .verbatim => h.text

/-- Texts in parentheses, with commas between them. -/
def parenthesized (separator : String) (items : List String) : String :=
  "(" ++ String.intercalate separator items ++ ")"

mutual

/-- The text of a value. -/
def value (style : TextStyle) : Value → String
  | .undefined => "undefined"
  | .null => "null"
  | .bool b => if b then "true" else "false"
  | .number n => n.canonical
  | .string s => style.string s
  | .date t => "epoch:" ++ integerText t.millis
  | .pattern p => style.pattern p
  | .array items => parenthesized "," (values style items)
  | .object fields => style.encode (Value.object fields).toJson.compact
  | .host h => style.host h

/-- The texts of some values. -/
def values (style : TextStyle) : List Value → List String
  | [] => []
  | v :: vs => value style v :: values style vs

end

/-! ## Terms -/

/-- A flat list in parentheses. -/
def isFlatList (mayBeEmpty : Bool) (cs : List Char) : Bool :=
  match cs with
  | '(' :: rest =>
    rest.getLast? = some ')' && rest.dropLast.all Text.isListChar &&
      (mayBeEmpty || !rest.dropLast.isEmpty)
  | _ => false

/-- The text can stand on the left of an infix operator. -/
def isLeftOperand (s : String) : Bool :=
  isFlatList false s.toList || (!s.isEmpty && s.toList.all Text.isWordChar)

/-- The text can stand on the right of an infix operator. -/
def isRightOperand (s : String) : Bool :=
  isFlatList true s.toList || s.toList.all Text.isWordChar

/-- The text of a comparison from the texts of its operands: infix if both of
them can stand there. -/
def comparison (name symbol left right : String) : String :=
  if isLeftOperand left && isRightOperand right then left ++ symbol ++ right
  else name ++ parenthesized "," [left, right]

/-- The sign of a group. -/
def groupSign? (name : String) : Option String :=
  if name = andName then some "&" else if name = orName then some "|" else none

/-- The infix sign of a comparison. -/
def infixSign? (name : String) : Option String :=
  (Comparison.ofName? name).bind Comparison.symbol?

/-- The text of a term from the texts of its arguments: a group of two or more is
written with its sign, a comparison of two in infix form, anything else as a name
with a list. -/
def application (name : String) (args : List String) : String :=
  match groupSign? name, args with
  | some sign, _ :: _ :: _ => parenthesized sign args
  | _, _ =>
    match infixSign? name, args with
    | some symbol, [left, right] => comparison name symbol left right
    | _, _ => name ++ parenthesized "," args

mutual

/-- The text of a node. -/
def node (style : TextStyle) : Node → String
  | .term (some name) args => application name (nodes style args)
  | .term none args => parenthesized "," (nodes style args)
  | .list items => parenthesized "," (nodes style items)
  | .value v => style.value v

/-- The texts of some nodes. -/
def nodes (style : TextStyle) : List Node → List String
  | [] => []
  | n :: ns => node style n :: nodes style ns

end

/-- The text of the members of a root disjunction: with fewer than two of them a
sign at the end keeps it a disjunction. -/
def disjunction (members : List String) : String :=
  if members.length < 2 then String.intercalate "|" members ++ "|"
  else String.intercalate "|" members

/-- A node that is the term of a clause. -/
def isClause : Node → Bool
  | .term (some name) _ => isClauseName name
  | _ => false

/-- The text of a root from its name and the members to be written. -/
def root (style : TextStyle) (t : Term) (members : List Node) (grouped : Bool) : String :=
  if t.isNamed andName then
    match t.args with
    | [.term (some name) args] =>
      -- The root collapses a conjunction of a single one, so one more is written around it.
      if name = andName then "and(" ++ style.node (.term (some name) args) ++ ")"
      else String.intercalate "&" (style.nodes members)
    | _ => String.intercalate "&" (style.nodes members)
  else if t.isNamed orName then
    let text := disjunction (style.nodes members)
    if grouped then "(" ++ text ++ ")" else text
  else style.node t.toNode

/-- The text of a term as the root of a tree. -/
def term (style : TextStyle) (t : Term) : String := style.root t t.args false

/-! ## Queries -/

/-- The text of a clause, if there is anything in it. -/
def clause? (name : String) (items : List String) : Option String :=
  if items.isEmpty then none else some (name ++ parenthesized "," items)

/-- The texts of the fields that are included, or of those that are excluded. -/
def fields (style : TextStyle) (q : Query) (included : Bool) : List String :=
  (q.fields.filter (·.2 == included)).map fun e => style.string e.1

/-- The text of a sort key. -/
def sortKey (style : TextStyle) (key : String × SortOrder) : String :=
  if key.2 < 0 then "-" ++ style.string key.1 else style.string key.1

/-- The limit and the number of skipped results; nothing if neither is set. -/
def paging (q : Query) : List String :=
  if q.limit = -1 ∧ q.skip = 0 then []
  else if q.skip = 0 then [integerText q.limit.toInt]
  else [integerText q.limit.toInt, integerText q.skip.toNat]

/-- The texts of the clauses of a query. -/
def clauses (style : TextStyle) (q : Query) : List String :=
  [clause? "select" (style.fields q true), clause? "exclude" (style.fields q false),
    clause? "sort" (q.sort.map style.sortKey), clause? "limit" (paging q)].filterMap id

/-- The text of a query: its clauses, then what its selector says beyond them. -/
def query (style : TextStyle) (q : Query) : String :=
  let clauses := style.clauses q
  let members := q.selector.args.filter fun n => !isClause n
  let selector := style.root q.selector members (!clauses.isEmpty)
  String.intercalate "&" (if selector.isEmpty then clauses else clauses ++ [selector])

end TextStyle

/-- The canonical text of a value. -/
def Value.canonical (v : Value) : String := ({} : TextStyle).value v

/-- The canonical text of a term. -/
def Term.canonical (t : Term) : String := ({} : TextStyle).term t

/-- The canonical text of a query. -/
def Query.canonical (q : Query) : String := ({} : TextStyle).query q

end ResourceQuery
