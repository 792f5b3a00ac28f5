import ResourceQuery.Pattern.CharSet
import ResourceQuery.Pattern.Mode
import ResourceQuery.Pattern.Regex
import ResourceQuery.Text.Percent

/-!
# Escapes of regular expressions

What a backslash and the characters after it stand for: a character, a set of
characters or a condition on a place.

## Main definitions

* `Pattern.Atom`: what an escape stands for.
* `Pattern.escape?`: read an escape after its backslash.
-/

namespace ResourceQuery

namespace Pattern

/-- A condition on the characters before and after a place. -/
abbrev Look := Option Char → Option Char → Bool

namespace Look

/-- The place is before all characters. -/
def startOfText : Look := fun before _ => before.isNone

/-- The place is after all characters. -/
def endOfText : Look := fun _ after => after.isNone

/-- The place is at the start of a line. -/
def startOfLine (crlf : Bool) : Look := fun before after =>
  before.isNone || before == some '\n' || (crlf && before == some '\r' && after != some '\n')

/-- The place is at the end of a line. -/
def endOfLine (crlf : Bool) : Look := fun before after =>
  after.isNone ||
    (if crlf then after == some '\r' || (after == some '\n' && before != some '\r')
    else after == some '\n')

/-- There is a character and it belongs to a word. -/
def inWord (unicode : Bool) (c : Option Char) : Bool :=
  c.any (CharSet.confined unicode Text.isWordCharacter 0).contains

/-- A condition on whether the characters before and after belong to words. -/
def word (unicode : Bool) (holds : Bool → Bool → Bool) : Look := fun before after =>
  holds (inWord unicode before) (inWord unicode after)

/-- The conditions on words that have names. -/
def ofName? (unicode : Bool) (name : List Char) : Option Look :=
  match String.ofList name with
  | "start" => some (word unicode fun before after => !before && after)
  | "end" => some (word unicode fun before after => before && !after)
  | "start-half" => some (word unicode fun before _ => !before)
  | "end-half" => some (word unicode fun _ after => !after)
  | _ => none

end Look

/-- What stands for one step of a regular expression. -/
inductive Atom where
  /-- A character for itself. -/
  | literal (c : Char)
  /-- Any character of a set. -/
  | set (s : CharSet)
  /-- A condition on the place. -/
  | look (holds : Look)

/-- ASCII punctuation and control characters can be escaped to stand for
themselves, apart from the two angle brackets. -/
def isEscapable (c : Char) : Bool :=
  c.toNat < 128 && !c.isAlphanum && c != '<' && c != '>'

/-- The character with a code point, unless that is a surrogate or too large. -/
def charOfCode? (n : Nat) : Option Char :=
  if n.isValidChar then some (Char.ofNat n) else none

/-- The value of a fixed number of hexadecimal digits. -/
def hexDigits? (mode : Mode) : Nat → Nat → List Char → Option (Nat × List Char)
  | 0, value, cs => some (value, cs)
  | _ + 1, _, [] => none
  | n + 1, value, c :: cs =>
    match Percent.hexValue? c with
    | some d => hexDigits? mode n (16 * value + d) (mode.skip cs)
    | none => none

/-- The value of a text of hexadecimal digits. -/
def hexNumber? (digits : List Char) : Option Nat :=
  if digits.isEmpty then none
  else digits.foldlM (fun value c => (Percent.hexValue? c).map (16 * value + ·)) 0

/-- A character by its code point, in braces or with a fixed number of digits.
Without Unicode two digits name a byte, which has to be ASCII. -/
def hexEscape? (mode : Mode) (digits : Nat) (cs : List Char) : Option (Atom × List Char) :=
  match mode.skip cs with
  | '\x7b' :: rest => do
    let (text, rest) ← mode.braced? rest
    let c ← charOfCode? (← hexNumber? text)
    return (.literal c, mode.skip rest)
  | cs => do
    let (value, rest) ← hexDigits? mode digits 0 cs
    let c ← charOfCode? value
    if !mode.unicode && digits == 2 && value ≥ 128 then none
    else return (.literal c, rest)

/-- A property by one letter or by a text in braces. -/
def propertyEscape? (mode : Mode) (negated : Bool) (cs : List Char) :
    Option (Atom × List Char) := do
  let (text, rest) ←
    match mode.skip cs with
    | [] => none
    | '\x7b' :: rest => mode.braced? rest
    | '\\' :: _ => none
    | c :: rest => some ([c], mode.skip rest)
  let (s, complement) ← CharSet.ofProperty? text
  if !mode.unicode then none
  else
    let s := if mode.ignoreCase then s.closeUnder mode.variants else s
    return (.set (if negated != complement then s.complement else s), rest)

/-- A word boundary: a plain one, or one of the kinds named in braces. -/
def boundaryEscape? (mode : Mode) (cs : List Char) : Option (Atom × List Char) :=
  let plain := some (Atom.look (Look.word mode.unicode (· != ·)), cs)
  match cs with
  | '\x7b' :: rest =>
    match mode.skip rest with
    | [] => none
    | c :: _ =>
      if c.isAlpha || c == '-' then do
        let (name, rest) ← mode.braced? rest
        let holds ← Look.ofName? mode.unicode name
        return (.look holds, rest)
      else plain
  | _ => plain

/-- The escape after a backslash: what it stands for and what follows it.
Digits are refused, since there are no references back to groups, and so are the
letters without a meaning. -/
def escape? (mode : Mode) : List Char → Option (Atom × List Char)
  | [] => none
  | c :: rest =>
    if isEscapable c then some (.literal c, rest)
    else
      match c with
      | 'a' => some (.literal '\x07', rest)
      | 'f' => some (.literal '\x0c', rest)
      | 't' => some (.literal '\t', rest)
      | 'n' => some (.literal '\n', rest)
      | 'r' => some (.literal '\r', rest)
      | 'v' => some (.literal '\x0b', rest)
      | 'x' => hexEscape? mode 2 rest
      | 'u' => hexEscape? mode 4 rest
      | 'U' => hexEscape? mode 8 rest
      | 'p' => propertyEscape? mode false rest
      | 'P' => propertyEscape? mode true rest
      | 'A' => some (.look Look.startOfText, rest)
      | 'z' => some (.look Look.endOfText, rest)
      | 'b' => boundaryEscape? mode rest
      | 'B' => some (.look (Look.word mode.unicode (· == ·)), rest)
      | '<' => (Look.ofName? mode.unicode "start".toList).map fun holds => (.look holds, rest)
      | '>' => (Look.ofName? mode.unicode "end".toList).map fun holds => (.look holds, rest)
      | _ => (CharSet.ofLetter? mode.unicode c).map fun s => (.set s, rest)

end Pattern

end ResourceQuery
