import ResourceQuery.Entries
import ResourceQuery.Json.View
import ResourceQuery.Parser.Basic

/-!
# Queries

A query is a selector tree with what its clauses say: which fields to show, in
what order to sort, how many results to give and how many to skip.

## Main definitions

* `SortOrder`: the direction of a sort key.
* `Query`, `Query.isEmpty`, `Query.field?`, `Query.sortOrder?`.
* `Query.applyClause`: what a clause does to a query.
* `Parser.parseQuery`, `parseQuery`: the query of a text.
-/

namespace ResourceQuery

/-- The direction of a sort key as a number: a negative one is descending. -/
abbrev SortOrder := Int32

/-- The direction of a key without a minus sign. -/
def SortOrder.ascending : SortOrder := 1

/-- The direction of a key with a minus sign. -/
def SortOrder.descending : SortOrder := -1

/-- A selector with its projection, sort order and paging. -/
structure Query where
  selector : Term := .and []
  /-- Fields to include or to exclude. -/
  fields : List (String × Bool) := []
  sort : List (String × SortOrder) := []
  /-- The greatest number of results, or -1 for no limit. -/
  limit : Int64 := -1
  skip : UInt64 := 0

namespace Query

/-- Nothing is asked for. -/
def isEmpty (q : Query) : Bool :=
  q.skip == 0 && q.limit == -1 && q.fields.isEmpty && q.sort.isEmpty && q.selector.args.isEmpty

/-- Is a field included or excluded? -/
def field? (q : Query) (path : String) : Option Bool := q.fields.lookup path

/-- The direction a field is sorted in. -/
def sortOrder? (q : Query) (path : String) : Option SortOrder := q.sort.lookup path

/-- Equality of queries: equal trees, and the same clauses. -/
def eqv (p q : Query) : Bool :=
  p.selector.eqv q.selector && p.fields == q.fields && p.sort == q.sort &&
    p.skip == q.skip && p.limit == q.limit

/-! ## Clauses -/

/-- The node is the single value `_id`. -/
def isIdOnly : List Node → Bool
  | [.value (.string s)] => s == "_id"
  | _ => false

/-- Include or exclude fields in place of what an earlier clause said; a lone
`exclude(_id)` adds to it instead. -/
def project (q : Query) (included : Bool) (args : List Node) : Query :=
  let fields := if !included && isIdOnly args then q.fields else []
  { q with fields := (args.filterMap Node.path?).foldl (Entries.upsert · · included) fields }

/-- The key and the direction of a sort path: a leading sign is the direction. -/
def sortKey (path : String) : String × SortOrder :=
  match path.toList with
  | '-' :: rest => (String.ofList rest, .descending)
  | '+' :: rest => (String.ofList rest, .ascending)
  | _ => (path, .ascending)

/-- Sort by the given paths. -/
def sortBy (q : Query) (args : List Node) : Query :=
  { q with
    sort := ((args.filterMap Node.path?).map sortKey).foldl
      (fun s k => Entries.upsert s k.1 k.2) [] }

/-- The integer a text starts with, after white space: `10px` starts with 10. -/
def leadingInteger? (text : String) : Option Int64 :=
  let cs := Text.trimStart text.toList
  match cs with
  | c :: rest =>
    if c = '-' ∨ c = '+' then Literal.int64? (c :: rest.takeWhile Char.isDigit)
    else Literal.int64? (cs.takeWhile Char.isDigit)
  | [] => none

/-- The integer a node denotes: a number without its fraction, or the integer a
string starts with. -/
def integer? (n : Node) : Option Int64 :=
  match n with
  | .value v =>
    match v.truncate? with
    | some i => some i
    | none => v.text?.bind leadingInteger?
  | _ => none

/-- The limit a node denotes: a positive integer, or else none. -/
def limitOf (n : Option Node) : Int64 :=
  match n.bind integer? with
  | some i => if 1 ≤ i then i else -1
  | none => -1

/-- The number of results to skip that a node denotes: a non-negative integer,
or else zero. -/
def skipOf (n : Option Node) : UInt64 :=
  match n.bind integer? with
  | some i => if 0 ≤ i then i.toUInt64 else 0
  | none => 0

/-- Limit the results and skip some. -/
def page (q : Query) (args : List Node) : Query :=
  { q with limit := limitOf args[0]?, skip := skipOf args[1]? }

/-- What a clause does to a query, if its name is known. -/
def applyClause? (q : Query) (c : Clause) : Option Query :=
  if c.name = "select" then some (q.project true c.args)
  else if c.name = "exclude" then some (q.project false c.args)
  else if c.name = "sort" then some (q.sortBy c.args)
  else if c.name = "limit" then some (q.page c.args)
  else none

/-- What a clause does to a query; an unknown one does nothing. -/
def applyClause (q : Query) (c : Clause) : Query := (q.applyClause? c).getD q

/-- The query of a selector and its clauses. -/
def ofClauses (selector : Term) (clauses : List Clause) : Query :=
  clauses.foldl applyClause { selector := selector }

/-! ## JSON -/

/-- The JSON of a projection. -/
def fieldsToJson (fields : List (String × Bool)) : Json :=
  Json.ofEntries (fields.map fun e => (e.1, .bool e.2))

/-- The JSON of a sort order. -/
def sortToJson (sort : List (String × SortOrder)) : Json :=
  Json.ofEntries (sort.map fun e => (e.1, .int e.2.toInt))

/-- The JSON of a query. -/
def toJson (q : Query) : Json :=
  .object [("selector", q.selector.toJson), ("fields", fieldsToJson q.fields),
    ("sort", sortToJson q.sort), ("limit", .int q.limit.toInt), ("skip", .int q.skip.toNat)]

end Query

/-- The names of the clauses that queries know. -/
def isClauseName (name : String) : Bool := Dialect.queryClauses.contains name

/-- The query of a text. -/
def Parser.parseQuery (p : Parser) (text : String) : Except Error Query :=
  (p.run text).map fun (selector, clauses) => Query.ofClauses selector clauses

/-- The tree of a text in the default dialect. -/
def parse (text : String) : Except Error Term := ({} : Parser).parse text

/-- The query of a text in the dialect of full queries. -/
def parseQuery (text : String) : Except Error Query := Parser.queries.parseQuery text

end ResourceQuery
