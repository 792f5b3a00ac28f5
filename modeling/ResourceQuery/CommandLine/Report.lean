import ResourceQuery.CanonicalText
import ResourceQuery.Filter.StoreQuery
import ResourceQuery.Manual

/-!
# Reports

What the commands do with a query text: check it, show its tree, write it in
canonical form, or compile it.

## Main definitions

* `Request`, `Request.run`: a text with what to do, and the report on it.
* `Report.show`: a report as text.
* `Failure`, `Failure.message`: what can go wrong.
-/

namespace ResourceQuery

/-- What a report shows. -/
inductive ReportKind where
  /-- Whether the text is a query. -/
  | validity
  | tree
  | canonicalText
  | storeQuery
deriving DecidableEq

/-- A query text and what to do with it. -/
structure Request where
  query : String
  kind : ReportKind := .validity
  /-- The dialect of trees; the other reports read full queries. -/
  dialect : Dialect := {}
  filter : FilterOptions := {}
  style : TextStyle := {}
  /-- Show JSON over several lines. -/
  pretty : Bool := false

/-- The outcome of a request. -/
inductive Report where
  | valid
  | text (t : String)
  | json (j : Json)

/-- Carry out a request; white space around the text is not part of it. -/
def Request.run (r : Request) : Except Error Report :=
  let query := String.ofList (Text.trim r.query.toList)
  match r.kind with
  | .tree => do
    let tree ← Parser.parse { dialect := r.dialect } query
    return .json tree.toJson
  | .validity => do
    let _ ← parseQuery query
    return .valid
  | .canonicalText => do
    let q ← parseQuery query
    return .text (r.style.query q)
  | .storeQuery => do
    let q ← parseQuery query
    return .json (q.compile r.filter).toJson

/-- The text of a report. -/
def Report.show (pretty : Bool) : Report → String
  | valid => "Syntax is valid"
  | text t => t
  | json j => if pretty then j.pretty else j.compact

/-- What can go wrong in a command. -/
inductive Failure where
  | parse (e : Error)
  /-- The input is not UTF-8. -/
  | undecodable
  | unknownTopic (name : String)

/-- The wording of a failure. -/
def Failure.message : Failure → String
  | parse e => "Parse error: " ++ e.message
  | undecodable => "IO error: stream did not contain valid UTF-8"
  | unknownTopic name =>
    "Unknown category: '" ++ name ++ "'\nRun 'rql docs' to see available categories."

/-- A page of the manual: that of a topic, or the overview. -/
def Manual.find : Option String → Except Failure String
  | none => .ok overview
  | some name =>
    match Topic.ofName? name with
    | some topic => .ok topic.text
    | none => .error (.unknownTopic name)

end ResourceQuery
