import ResourceQuery.Pattern.Basic
import ResourceQuery.Pattern.Reading

/-!
# Searching with patterns

A pattern is read in the mode of its flags.  Patterns that are no regular
expression, or one beyond the limits, cannot be searched for.

## Main definitions

* `Pattern.compile?`: the regular expression of a pattern.
-/

namespace ResourceQuery

namespace Pattern

/-- The mode of the flags: `i`, `m` and `s` count, the others are for the document
store. -/
def mode (p : Pattern) : Mode :=
  let has (c : Char) := p.flags.toList.contains c
  { ignoreCase := has 'i', multiline := has 'm', dotAll := has 's' }

/-- The regular expression of a pattern, unless its source is none or beyond the
limits. -/
def compile? (p : Pattern) : Option Regex := do
  let piece ← read? p.mode p.source.toList
  if piece.withinLimits then return piece.regex else none

end Pattern

end ResourceQuery
