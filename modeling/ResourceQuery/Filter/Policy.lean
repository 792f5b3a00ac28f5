import ResourceQuery.Text.Quoted

/-!
# Field policies

A filter may only mention fields that the host allows.  The host gives a
predicate, a list of allowed paths or a list of rejected ones; the first of these
that is given decides.

## Main definitions

* `FieldPolicy`, `FieldPolicy.isAllowed`.
* `FilterOptions`: the policy with the other choices of compilation.
* `FilterOptions.summary`: one line with the choices.
-/

namespace ResourceQuery

/-- Which field paths a filter may mention. -/
structure FieldPolicy where
  predicate : Option (String → Bool) := none
  /-- Only these paths. -/
  whitelist : Option (List String) := none
  /-- All paths but these. -/
  blacklist : Option (List String) := none

namespace FieldPolicy

/-- The predicate decides, else the whitelist, else the blacklist; without any of
them every path is allowed. -/
def isAllowed (p : FieldPolicy) (path : String) : Bool :=
  match p.predicate, p.whitelist, p.blacklist with
  | some allowed, _, _ => allowed path
  | none, some paths, _ => paths.contains path
  | none, none, some paths => !paths.contains path
  | none, none, none => true

/-- The policy without restrictions. -/
def permitAll : FieldPolicy := {}

@[simp] theorem isAllowed_permitAll (path : String) : permitAll.isAllowed path = true := rfl

end FieldPolicy

/-- The choices of compilation. -/
structure FilterOptions where
  /-- Honour `where(code)`. -/
  allowWhere : Bool := false
  /-- Merge inner conjunctions into one document as well. -/
  compactAnd : Bool := false
  policy : FieldPolicy := {}

namespace FilterOptions

/-- A truth value in words. -/
def boolText (b : Bool) : String := if b then "true" else "false"

/-- A list of paths, or that there is none; a path counts once. -/
def pathsText : Option (List String) → String
  | some paths => "Some(" ++ Text.bracketed "\x7b" "\x7d" paths.eraseDups ++ ")"
  | none => "None"

/-- A line that lists the choices. -/
def summary (o : FilterOptions) : String :=
  "CompileOptions \x7b allow_where: " ++ boolText o.allowWhere ++
    ", compact_and: " ++ boolText o.compactAnd ++
    ", whitelist: " ++ pathsText o.policy.whitelist ++
    ", blacklist: " ++ pathsText o.policy.blacklist ++
    ", is_property_allowed: " ++ boolText o.policy.predicate.isSome ++ " \x7d"

end FilterOptions

end ResourceQuery
