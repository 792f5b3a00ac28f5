/-!
# Word characters

The characters that names and values of a query are written with.  Everything
else is punctuation or has to be percent-encoded.

## Main definitions

* `Text.isNameChar`: letters, digits and `_`.
* `Text.isWordChar`: the characters of words.
* `Text.isListChar`: word characters and commas, the inside of a flat list.
-/

namespace ResourceQuery

namespace Text

/-- ASCII letters, digits and the underscore. -/
def isNameChar (c : Char) : Bool :=
  c.isAlphanum || c == '_'

/-- The characters of words: name characters and `* - + . $ : %`. -/
def isWordChar (c : Char) : Bool :=
  isNameChar c || ['*', '-', '+', '.', '$', ':', '%'].contains c

/-- Word characters and the comma. -/
def isListChar (c : Char) : Bool :=
  isWordChar c || c == ','

end Text

end ResourceQuery
