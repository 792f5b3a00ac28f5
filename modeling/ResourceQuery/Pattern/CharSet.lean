import ResourceQuery.Text.Category
import ResourceQuery.Text.DecimalDigit

/-!
# Sets of characters

The sets that the classes of regular expressions denote.  Beside the membership
test a set has a weight, an estimate of the memory that a search for it takes,
and a depth, how far its expression is nested.

## Main definitions

* `CharSet` with its operations.
* `CharSet.ofLetter?`: the sets of `\d`, `\s` and `\w`.
* `CharSet.ofAsciiName?`: the sets of `[:name:]`.
* `CharSet.ofProperty?`: the sets of `\p{name}`.
-/

namespace ResourceQuery

/-- A set of characters in a regular expression. -/
structure CharSet where
  contains : Char → Bool
  /-- The memory for one occurrence, in bytes, roughly. -/
  weight : Nat
  /-- How far the expression of the set is nested. -/
  depth : Nat := 0

namespace CharSet

/-! ## Operations -/

/-- No character. -/
def nothing : CharSet := ⟨fun _ => false, 0, 0⟩

/-- The characters from one to another. -/
def range (first last : Char) : CharSet :=
  ⟨fun c => first ≤ c && c ≤ last, 16 * last.utf8Size, 0⟩

/-- One character. -/
def single (c : Char) : CharSet :=
  range c c

/-- The characters outside a set. -/
def complement (s : CharSet) : CharSet :=
  { s with contains := fun c => !s.contains c, weight := s.weight + 400 }

/-- The characters with a variant in a set. -/
def closeUnder (s : CharSet) (variants : Char → List Char) : CharSet :=
  { s with contains := fun c => (variants c).any s.contains, weight := 2 * s.weight }

/-- The characters whose membership in two sets is combined in some way. -/
def combine (op : Bool → Bool → Bool) (s t : CharSet) : CharSet :=
  ⟨fun c => op (s.contains c) (t.contains c), s.weight + t.weight, max s.depth t.depth⟩

/-- The characters in either set. -/
def union (s t : CharSet) : CharSet :=
  combine (· || ·) s t

/-- One nesting level more. -/
def deeper (s : CharSet) : CharSet :=
  { s with depth := s.depth + 1 }

/-- The characters of a table. -/
def ofRanges (t : RangeTable) : CharSet :=
  ⟨t.contains, 80 * t.length, 0⟩

/-! ## Classes by letter -/

/-- The characters of a property that ASCII text has a share in: all of them, or
only the ASCII ones. -/
def confined (unicode : Bool) (contains : Char → Bool) (weight : Nat) : CharSet :=
  if unicode then ⟨contains, weight, 0⟩ else ⟨fun c => c.toNat < 128 && contains c, 64, 0⟩

/-- The sets of `\d`, `\s` and `\w` and, by the upper-case letters, their
complements.  Without Unicode there are no complements, because they would hold
bytes that are no characters. -/
def ofLetter? (unicode : Bool) (letter : Char) : Option CharSet :=
  let negate (s : CharSet) : Option CharSet := if unicode then some s.complement else none
  let digit := confined unicode Text.isDecimalDigit 4000
  let blank := confined unicode Text.isBlank 700
  let word := confined unicode Text.isWordCharacter 60000
  match letter with
  | 'd' => some digit
  | 's' => some blank
  | 'w' => some word
  | 'D' => negate digit
  | 'S' => negate blank
  | 'W' => negate word
  | _ => none

/-! ## Classes by name -/

/-- Visible ASCII characters. -/
def isGraphic (c : Char) : Bool := '!' ≤ c && c ≤ '~'

/-- The ASCII sets of `[:name:]`. -/
def asciiNames : List (String × (Char → Bool)) :=
  [("alnum", Char.isAlphanum),
   ("alpha", Char.isAlpha),
   ("ascii", fun _ => true),
   ("blank", fun c => c == ' ' || c == '\t'),
   ("cntrl", fun c => c.toNat < 32 || c.toNat == 127),
   ("digit", Char.isDigit),
   ("graph", isGraphic),
   ("lower", Char.isLower),
   ("print", fun c => c == ' ' || isGraphic c),
   ("punct", fun c => isGraphic c && !c.isAlphanum),
   ("space", fun c => c == ' ' || (9 ≤ c.toNat && c.toNat ≤ 13)),
   ("upper", Char.isUpper),
   ("word", fun c => c.isAlphanum || c == '_'),
   ("xdigit", fun c => c.isDigit || ('a' ≤ c && c ≤ 'f') || ('A' ≤ c && c ≤ 'F'))]

/-- The set of `[:name:]`. -/
def ofAsciiName? (name : List Char) : Option CharSet :=
  (asciiNames.lookup (String.ofList name)).map (confined false · 64)

/-! ## Classes by property -/

/-- The long names of the general categories, with their letters. -/
def categoryNames : List (String × String) :=
  [("letter", "L"), ("uppercaseletter", "Lu"), ("lowercaseletter", "Ll"),
   ("titlecaseletter", "Lt"), ("modifierletter", "Lm"), ("otherletter", "Lo"),
   ("mark", "M"), ("combiningmark", "M"), ("nonspacingmark", "Mn"), ("spacingmark", "Mc"),
   ("enclosingmark", "Me"), ("number", "N"), ("decimalnumber", "Nd"), ("digit", "Nd"),
   ("letternumber", "Nl"), ("othernumber", "No"), ("punctuation", "P"), ("punct", "P"),
   ("connectorpunctuation", "Pc"), ("dashpunctuation", "Pd"), ("openpunctuation", "Ps"),
   ("closepunctuation", "Pe"), ("initialpunctuation", "Pi"), ("finalpunctuation", "Pf"),
   ("otherpunctuation", "Po"), ("symbol", "S"), ("mathsymbol", "Sm"), ("currencysymbol", "Sc"),
   ("modifiersymbol", "Sk"), ("othersymbol", "So"), ("separator", "Z"), ("spaceseparator", "Zs"),
   ("lineseparator", "Zl"), ("paragraphseparator", "Zp"), ("control", "Cc"), ("cntrl", "Cc"),
   ("format", "Cf"), ("privateuse", "Co")]

/-- The letters of a category by its name, short or long. -/
def categoryLetters? (name : String) : Option String :=
  match categoryNames.lookup name with
  | some letters => some letters
  | none =>
    ((categoryNames.map (·.2)).find? fun letters =>
      letters.toList.map Char.toLower == name.toList)

/-- The characters in some category other than the unassigned one. -/
def assigned : CharSet :=
  ofRanges (Text.rangesOfCategory "")

/-- The set of a general category, or of one of the sets named beside them. -/
def ofCategory? (name : String) : Option CharSet :=
  match name with
  | "any" => some (range '\x00' (Char.ofNat 0x10FFFF))
  | "ascii" => some (range '\x00' '\x7f')
  | "assigned" => some assigned
  | "cn" | "unassigned" => some assigned.complement
  | "c" | "other" =>
    some ((ofRanges (Text.rangesOfCategory "C")).union assigned.complement)
  | "lc" | "casedletter" =>
    some (ofRanges (["Lu", "Ll", "Lt"].flatMap Text.rangesOfCategory))
  | _ => (categoryLetters? name).map fun letters => ofRanges (Text.rangesOfCategory letters)

/-- The set of a property that characters have or lack. -/
def ofBinary? (name : String) : Option CharSet :=
  match name with
  | "alphabetic" | "alpha" => some (ofRanges Text.alphabeticRanges)
  | "lowercase" | "lower" => some (ofRanges Text.lowercaseRanges)
  | "uppercase" | "upper" => some (ofRanges Text.uppercaseRanges)
  | "whitespace" | "wspace" | "space" => some ⟨Text.isBlank, 700, 0⟩
  | "asciihexdigit" | "ahex" => ofAsciiName? "xdigit".toList
  | _ => none

/-- The set of a script. -/
def ofScript? (name : String) : Option CharSet :=
  (Text.scriptRanges.lookup name).map ofRanges

/-- Names are compared without case, blanks, hyphens and underscores, and a name
may start with `is`. -/
def plainName (name : List Char) : String :=
  let kept := (name.filter fun c =>
    c.toNat < 128 && c != ' ' && c != '_' && c != '-').map Char.toLower
  match kept with
  | 'i' :: 's' :: rest => if rest.isEmpty then "is" else String.ofList rest
  | _ => String.ofList kept

/-- Cut a text at the first occurrence of another one. -/
def cutAt? (mark : List Char) : List Char → Option (List Char × List Char)
  | [] => none
  | c :: cs =>
    if mark.isPrefixOf (c :: cs) then some ([], (c :: cs).drop mark.length)
    else (cutAt? mark cs).map fun (before, after) => (c :: before, after)

/-- The set of a property with a given value. -/
def ofNamedValue? (name value : List Char) : Option CharSet :=
  match plainName name with
  | "gc" | "generalcategory" => ofCategory? (plainName value)
  | "sc" | "script" | "scx" | "scriptextensions" => ofScript? (plainName value)
  | _ => none

/-- The set of a property by its name alone. -/
def ofName? (name : List Char) : Option CharSet :=
  let plain := plainName name
  (ofBinary? plain).or ((ofCategory? plain).or (ofScript? plain))

/-- The set that the text of `\p{text}` denotes, and whether its complement is
meant. -/
def ofProperty? (text : List Char) : Option (CharSet × Bool) :=
  match cutAt? ['!', '='] text with
  | some (name, value) => (ofNamedValue? name value).map (·, true)
  | none =>
    match (cutAt? [':'] text).or (cutAt? ['='] text) with
    | some (name, value) => (ofNamedValue? name value).map (·, false)
    | none => (ofName? text).map (·, false)

end CharSet

end ResourceQuery
