import ResourceQuery.Text.Category

/-!
# Quoted text for display

Text in double quotes, with what cannot be shown as it is written as an escape.

## Main definitions

* `Text.quoted`: a text in quotes.
* `Text.bracketed`: quoted texts between two brackets.
-/

namespace ResourceQuery

namespace Text

/-- An escape with the hexadecimal number of a character. -/
def numbered (c : Char) : String :=
  "\\u\x7b" ++ String.ofList (Nat.toDigits 16 c.toNat) ++ "\x7d"

/-- Characters with a shape of their own: letters, numbers, punctuation, symbols
and the marks that take up space, apart from the two halfwidth sound marks. -/
def shapedRanges : RangeTable :=
  ["L", "N", "P", "S", "Mc"].flatMap rangesOfCategory

/-- Characters that are written as escapes: controls, separators other than the
blank, joining marks, and what is private or unassigned. -/
def isShapeless (c : Char) : Bool :=
  let n := c.toNat
  if n < 127 then n < 32
  else n == 0xFF9E || n == 0xFF9F || !shapedRanges.contains c

/-- A character inside quotes. -/
def shownChar (c : Char) : String :=
  if c = '"' then "\\\""
  else if c = '\\' then "\\\\"
  else if c = '\t' then "\\t"
  else if c = '\n' then "\\n"
  else if c = '\r' then "\\r"
  else if c.toNat = 0 then "\\0"
  else if isShapeless c then numbered c
  else String.ofList [c]

/-- A text in quotes. -/
def quoted (s : String) : String :=
  "\"" ++ String.join (s.toList.map shownChar) ++ "\""

/-- Quoted texts between two brackets, with commas between them. -/
def bracketed (opening closing : String) (items : List String) : String :=
  opening ++ String.intercalate ", " (items.map quoted) ++ closing

end Text

end ResourceQuery
