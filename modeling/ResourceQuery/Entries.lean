/-!
# Ordered entries

Values under keys, in the order in which the keys came.  The fields and the sort
keys of a query are such lists, and so are JSON objects and filter documents.

## Main definitions

* `Entries.upsert`: set a key.
-/

namespace ResourceQuery

namespace Entries

/-- Set a key: the first entry with the key keeps its place, a new one goes last. -/
def upsert {α : Type} : List (String × α) → String → α → List (String × α)
  | [], key, value => [(key, value)]
  | e :: entries, key, value =>
    if e.1 = key then (key, value) :: entries else e :: upsert entries key value

end Entries

end ResourceQuery
