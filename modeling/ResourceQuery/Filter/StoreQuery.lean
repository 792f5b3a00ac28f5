import ResourceQuery.Filter.Compile
import ResourceQuery.Query.Basic

/-!
# Compiled queries

A query compiles to a filter document with the projection, the sort order and the
paging that the document store takes.

## Main definitions

* `StoreQuery`, `Query.compile`, `StoreQuery.toJson`.
-/

namespace ResourceQuery

/-- A query in the terms of the document store. -/
structure StoreQuery where
  selector : Document
  fields : List (String × Bool)
  sort : List (String × SortOrder)
  /-- The greatest number of results, or 0 for no limit. -/
  limit : UInt64
  skip : UInt64

/-- Compile a query; a negative limit is none. -/
def Query.compile (q : Query) (o : FilterOptions) : StoreQuery where
  selector := Filter.ofSelector o q.selector
  fields := q.fields
  sort := q.sort
  limit := if q.limit < 0 then 0 else q.limit.toUInt64
  skip := q.skip

/-- The JSON of a compiled query. -/
def StoreQuery.toJson (q : StoreQuery) : Json :=
  .object [("selector", Document.toJson q.selector), ("fields", Query.fieldsToJson q.fields),
    ("sort", Query.sortToJson q.sort), ("limit", .int q.limit.toNat), ("skip", .int q.skip.toNat)]

end ResourceQuery
