import ResourceQuery.Text.Blank
import ResourceQuery.Text.CaseFolding

/-!
# Modes of a regular expression

How a stretch of a regular expression is read: whether case matters, what the
anchors and the dot stand for, and whether white space and comments are skipped.

## Main definitions

* `Pattern.Mode`: the modes, all off but `unicode` at first.
* `Pattern.Mode.set?`: switch the mode that a letter stands for.
* `Pattern.Mode.skip`: drop white space and comments, in the mode that has them.
* `Pattern.Mode.braced?`: the text up to a closing brace.
-/

namespace ResourceQuery

namespace Pattern

/-- How a stretch of a regular expression is read. -/
structure Mode where
  /-- Characters match those that differ only in case. -/
  ignoreCase : Bool := false
  /-- The anchors hold at the ends of lines. -/
  multiline : Bool := false
  /-- The dot includes line ends. -/
  dotAll : Bool := false
  /-- White space and comments are skipped. -/
  spaced : Bool := false
  /-- A carriage return ends a line as well. -/
  crlf : Bool := false
  /-- The shortest run is preferred; of no effect on whether a text matches. -/
  lazy : Bool := false
  /-- Classes and case go beyond ASCII. -/
  unicode : Bool := true

namespace Mode

/-- Switch the mode that a letter stands for. -/
def set? (mode : Mode) (letter : Char) (on : Bool) : Option Mode :=
  match letter with
  | 'i' => some { mode with ignoreCase := on }
  | 'm' => some { mode with multiline := on }
  | 's' => some { mode with dotAll := on }
  | 'x' => some { mode with spaced := on }
  | 'R' => some { mode with crlf := on }
  | 'U' => some { mode with lazy := on }
  | 'u' => some { mode with unicode := on }
  | _ => none

/-- The characters that differ from a given one at most in case, as far as the
mode looks. -/
def variants (mode : Mode) (c : Char) : List Char :=
  if mode.unicode then Text.caseVariants c
  else if c.toNat < 128 then Text.asciiVariants c
  else [c]

/-- Drop white space and comments.  A comment goes from `#` to the end of the
line; `comment` says whether one is under way. -/
def skipSpaced (comment : Bool) : List Char → List Char
  | [] => []
  | c :: cs =>
    if comment then skipSpaced (c != '\n') cs
    else if Text.isBlank c then skipSpaced false cs
    else if c = '#' then skipSpaced true cs
    else c :: cs

/-- Drop white space and comments, in the mode that has them. -/
def skip (mode : Mode) (cs : List Char) : List Char :=
  if mode.spaced then skipSpaced false cs else cs

/-- The text up to a closing brace and what follows the brace; what the mode
skips is left out. -/
def bracedFrom (mode : Mode) (comment : Bool) : List Char → Option (List Char × List Char)
  | [] => none
  | c :: cs =>
    if comment then bracedFrom mode (c != '\n') cs
    else if mode.spaced && Text.isBlank c then bracedFrom mode false cs
    else if mode.spaced && c == '#' then bracedFrom mode true cs
    else if c = '\x7d' then some ([], cs)
    else (bracedFrom mode false cs).map fun (text, rest) => (c :: text, rest)

/-- The text up to a closing brace and what follows the brace. -/
def braced? (mode : Mode) (cs : List Char) : Option (List Char × List Char) :=
  bracedFrom mode false cs

end Mode

end Pattern

end ResourceQuery
