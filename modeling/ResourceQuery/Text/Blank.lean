/-!
# White space

The characters with the White_Space property, and the three ways the library
treats them: cutting them off the front of a text, off both ends, and splitting
a text into the words between them.

## Main definitions

* `Text.isBlank`: the White_Space property.
* `Text.trimStart`, `Text.trim`: remove white space at the front, at both ends.
* `Text.words`: the non-empty runs of other characters.
-/

namespace ResourceQuery

namespace Text

/-- The White_Space property: 25 code points in ten ranges. -/
def isBlank (c : Char) : Bool :=
  let n := c.toNat
  (9 ≤ n && n ≤ 13) || n == 0x20 || n == 0x85 || n == 0xA0 || n == 0x1680 ||
    (0x2000 ≤ n && n ≤ 0x200A) || n == 0x2028 || n == 0x2029 || n == 0x202F ||
    n == 0x205F || n == 0x3000

/-- Drop the white space a text starts with. -/
def trimStart (cs : List Char) : List Char :=
  cs.dropWhile isBlank

/-- Drop the white space a text ends with. -/
def trimEnd (cs : List Char) : List Char :=
  (cs.reverse.dropWhile isBlank).reverse

/-- Drop the white space at both ends of a text. -/
def trim (cs : List Char) : List Char :=
  trimEnd (trimStart cs)

/-- The non-empty runs of characters between white space; `pending` is the run
under way, last character first. -/
def wordsFrom (pending : List Char) : List Char → List (List Char)
  | [] => if pending.isEmpty then [] else [pending.reverse]
  | c :: cs =>
    if isBlank c then
      if pending.isEmpty then wordsFrom [] cs else pending.reverse :: wordsFrom [] cs
    else wordsFrom (c :: pending) cs

/-- The non-empty runs of characters between white space. -/
def words (cs : List Char) : List (List Char) :=
  wordsFrom [] cs

end Text

end ResourceQuery
