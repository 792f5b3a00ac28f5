import ResourceQuery.Entries
import ResourceQuery.Value

/-!
# Filter documents

A filter document is read as the conjunction of its entries.  This file has the
operations on such documents that compilation needs: joining several into one and
taking the complement of a condition.

## Main definitions

* `Document.mergeEntry?`: add an entry, if it does not collide.
* `Document.merge`: join documents, under `$and` where they collide.
* `Value.negated`: the complement of a condition on a path.
* `Document.mergeNegated`: add the complements of a document's entries.
-/

namespace ResourceQuery

/-- A document with a single entry. -/
def Value.entry (key : String) (v : Value) : Value := .object [(key, v)]

namespace Document

/-- A list of documents as a value. -/
def listed (docs : List Document) : Value := .array (docs.map .object)

/-- Two operator documents share an operator. -/
def overlap (a b : Document) : Bool :=
  b.any fun e => a.any fun f => f.1 == e.1

/-- Add an entry.  On a key that is there already only two operator documents
without a common operator can be joined. -/
def mergeEntry? (d : Document) (key : String) (v : Value) : Option Document :=
  match d.lookup key with
  | none => some (d ++ [(key, v)])
  | some current =>
    match current, v with
    | .object a, .object b =>
      -- An empty document is no operator document; it is compared as a value.
      if Document.isOperators a && Document.isOperators b && !overlap a b then
        some (Entries.upsert d key (.object (a ++ b)))
      else none
    | _, _ => none

/-- Add entries one after the other. -/
def mergeEntries? (d : Document) : Document → Option Document
  | [] => some d
  | (key, v) :: rest => (d.mergeEntry? key v).bind fun d => mergeEntries? d rest

/-- Join documents into one; if any entries collide they all stay apart under
`$and`. -/
def merge : List Document → Document
  | [d] => d
  | docs => (mergeEntries? [] docs.flatten).getD [("$and", listed docs)]

end Document

/-- The complement of a condition on a path: the complementary operator if there
is one, otherwise `$not` of an operator document or a pattern, and `$ne` of any
other value. -/
def Value.negated : Value → Value
  | .pattern p => .entry "$not" (.pattern p)
  | .object fields =>
    if Document.isOperators fields then
      match fields with
      | [(op, operand)] =>
        if op = "$ne" then operand
        else if op = "$in" then .entry "$nin" operand
        else if op = "$nin" then .entry "$in" operand
        else .entry "$not" (.object fields)
      | _ => .entry "$not" (.object fields)
    else .entry "$ne" (.object fields)
  | v => .entry "$ne" v

namespace Document

/-- Add the complements of the entries of a document, leaving out those under an
operator key and those that collide. -/
def mergeNegated (d : Document) : Document → Document
  | [] => d
  | (key, v) :: rest =>
    if isOperatorKey key then mergeNegated d rest
    else mergeNegated ((d.mergeEntry? key v.negated).getD d) rest

end Document

end ResourceQuery
