import ResourceQuery.Entries
import ResourceQuery.Number.Basic

/-!
# JSON

JSON values with ordered objects, and their two texts: compact, without any
white space, and pretty, indented by two spaces.

## Main definitions

* `Json`, `Json.ofEntries`: an object from entries that may repeat keys.
* `Json.compact`, `Json.pretty`: the two texts.
* `Json.quoted`: a string in quotes.
-/

namespace ResourceQuery

/-- A JSON value; the entries of an object are ordered. -/
inductive Json where
  | null
  | bool (b : Bool)
  | int (n : Int)
  | float (x : Binary64)
  | string (s : String)
  | array (items : List Json)
  | object (entries : List (String × Json))

instance : Inhabited Json := ⟨.null⟩

namespace Json

/-- The object of a list of entries: a repeated key keeps its first place and
its last value. -/
def ofEntries (entries : List (String × Json)) : Json :=
  object (entries.foldl (fun acc e => Entries.upsert acc e.1 e.2) [])

/-! ## Text -/

/-- The lower-case hexadecimal digit of a number below 16. -/
def hexDigit (n : Nat) : Char :=
  if n < 10 then Char.ofNat (48 + n) else Char.ofNat (87 + n)

/-- A character inside quotes: quotes, backslashes and control characters are
escaped. -/
def escapeChar (c : Char) : List Char :=
  if c = '"' then ['\\', '"']
  else if c = '\\' then ['\\', '\\']
  else if c.toNat = 8 then ['\\', 'b']
  else if c.toNat = 9 then ['\\', 't']
  else if c.toNat = 10 then ['\\', 'n']
  else if c.toNat = 12 then ['\\', 'f']
  else if c.toNat = 13 then ['\\', 'r']
  else if c.toNat < 32 then
    ['\\', 'u', '0', '0', hexDigit (c.toNat / 16), hexDigit (c.toNat % 16)]
  else [c]

/-- A string in quotes. -/
def quoted (s : String) : String :=
  String.ofList ('"' :: s.toList.flatMap escapeChar ++ ['"'])

/-- Doubles in JSON: positional from `1e-5` below `1e16`, always with a point or
an exponent; a tie between two texts goes to the even digit. -/
def floatLayout : NumberLayout where
  tie := .even
  isPositional d := d.digits = 0 || (-5 ≤ d.leadExponent && d.leadExponent ≤ 15)
  keepsPoint := true

mutual

/-- The text without white space. -/
def compact : Json → String
  | null => "null"
  | bool b => if b then "true" else "false"
  | int n => integerText n
  | float x => Number.floatText floatLayout x
  | string s => quoted s
  | array items => "[" ++ String.intercalate "," (compactItems items) ++ "]"
  | object entries => "\x7b" ++ String.intercalate "," (compactEntries entries) ++ "\x7d"

/-- The texts of the items of an array. -/
def compactItems : List Json → List String
  | [] => []
  | j :: js => compact j :: compactItems js

/-- The texts of the entries of an object. -/
def compactEntries : List (String × Json) → List String
  | [] => []
  | (key, j) :: es => (quoted key ++ ":" ++ compact j) :: compactEntries es

end

/-- A new line at a depth of nesting. -/
def newLine (depth : Nat) : String :=
  String.ofList ('\n' :: List.replicate (2 * depth) ' ')

/-- A container over several lines, or its two brackets alone if it is empty. -/
def container (opening closing : String) (depth : Nat) (items : List String) : String :=
  if items.isEmpty then opening ++ closing
  else
    opening ++ newLine (depth + 1) ++ String.intercalate ("," ++ newLine (depth + 1)) items ++
      newLine depth ++ closing

mutual

/-- The text over several lines at a depth of nesting. -/
def prettyAt (depth : Nat) : Json → String
  | array items => container "[" "]" depth (prettyItems (depth + 1) items)
  | object entries => container "\x7b" "\x7d" depth (prettyEntries (depth + 1) entries)
  | null => compact null
  | bool b => compact (bool b)
  | int n => compact (int n)
  | float x => compact (float x)
  | string s => compact (string s)

/-- The texts of the items of an array, at their depth. -/
def prettyItems (depth : Nat) : List Json → List String
  | [] => []
  | j :: js => prettyAt depth j :: prettyItems depth js

/-- The texts of the entries of an object, at their depth. -/
def prettyEntries (depth : Nat) : List (String × Json) → List String
  | [] => []
  | (key, j) :: es => (quoted key ++ ": " ++ prettyAt depth j) :: prettyEntries depth es

end

/-- The text over several lines. -/
def pretty (j : Json) : String := prettyAt 0 j

end Json

end ResourceQuery
