/-!
# Patterns as written

A pattern is the source of a regular expression with its flags.  It is kept as
text: it is written back into queries and handed to the document store as it
stands.  A glob is a simpler notation, turned into a case-insensitive pattern.

## Main definitions

* `Pattern`, `Pattern.shown`: `/source/flags`.
* `Pattern.ofText`: a pattern from its text in a query.
* `Pattern.ofGlob`: the pattern of a glob.
-/

namespace ResourceQuery

/-- The source of a regular expression and its flags. -/
structure Pattern where
  source : String
  flags : String
deriving DecidableEq

namespace Pattern

/-- The text between slashes, followed by the flags. -/
def shown (p : Pattern) : String :=
  "/" ++ p.source ++ "/" ++ p.flags

/-- The letters that can be flags. -/
def isFlag (c : Char) : Bool :=
  ['g', 'i', 'm', 's', 'u', 'y'].contains c

/-- Cut a text at its last slash. -/
def splitLastSlash? (cs : List Char) : Option (List Char × List Char) :=
  match cs.reverse.span (· != '/') with
  | (after, _ :: before) => some (before.reverse, after.reverse)
  | (_, []) => none

/-- The pattern a text denotes: `/source/flags` if it has that form, otherwise
the whole text is the source. -/
def ofText (text : String) : Pattern :=
  match text.toList with
  | '/' :: rest =>
    match splitLastSlash? rest with
    | some (source, flags) =>
      if flags.all isFlag then ⟨String.ofList source, String.ofList flags⟩ else ⟨text, ""⟩
    | none => ⟨text, ""⟩
  | _ => ⟨text, ""⟩

/-! ## Globs -/

/-- The characters that are written with a backslash to stand for themselves. -/
def isSpecial (c : Char) : Bool :=
  ['\\', '^', '$', '.', '|', '+', '(', ')', '[', ']', '\x7b', '\x7d'].contains c

/-- The source of one character of a glob. -/
def ofGlobChar (c : Char) : List Char :=
  if c = '*' then ['.', '*']
  else if c = '?' then ['.', '?']
  else if isSpecial c then ['\\', c]
  else [c]

/-- Drop the stars at both ends of a glob. -/
def trimStars (cs : List Char) : List Char :=
  ((cs.dropWhile (· = '*')).reverse.dropWhile (· = '*')).reverse

/-- The pattern of a glob: `*` stands for any run and `?` for at most one
character.  A star at an end of the glob leaves that end free; otherwise the
pattern is anchored there. -/
def ofGlob (glob : String) : Pattern :=
  let cs := glob.toList
  let start := if cs.head? = some '*' then [] else ['^']
  let finish := if cs.getLast? = some '*' then [] else ['$']
  ⟨String.ofList (start ++ (trimStars cs).flatMap ofGlobChar ++ finish), "i"⟩

end Pattern

end ResourceQuery
