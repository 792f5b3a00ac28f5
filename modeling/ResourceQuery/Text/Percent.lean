/-!
# Percent encoding

A text is encoded character by character: letters, digits, `-`, `_` and `.`
stand for themselves, any other character becomes one `%XX` escape per byte of
its UTF-8 form.  Decoding goes through bytes: each well-formed escape is one
byte, every other character contributes its own UTF-8 form, and the bytes are
read as UTF-8 at the end.  A `%` that two hexadecimal digits do not follow
stands for itself.

## Main definitions

* `Percent.encode`: the encoded text.
* `Percent.decode?`: the decoded text, if its bytes are UTF-8.
* `Percent.decode`: the decoded text, or the text itself if that fails.
-/

namespace ResourceQuery

namespace Percent

/-- The characters that stand for themselves in an encoded text. -/
def isUnreserved (c : Char) : Bool :=
  c.isAlphanum || c == '-' || c == '_' || c == '.'

/-- The upper-case hexadecimal digit of a number below 16. -/
def hexDigit (n : Nat) : Char :=
  if n < 10 then Char.ofNat (48 + n) else Char.ofNat (55 + n)

/-- The value of a hexadecimal digit of either case. -/
def hexValue? (c : Char) : Option Nat :=
  if c.isDigit then some (c.toNat - 48)
  else if 'A' ≤ c ∧ c ≤ 'F' then some (c.toNat - 55)
  else if 'a' ≤ c ∧ c ≤ 'f' then some (c.toNat - 87)
  else none

/-- The escape `%XX` of one byte. -/
def escapeByte (b : UInt8) : List Char :=
  ['%', hexDigit (b.toNat / 16), hexDigit (b.toNat % 16)]

/-- The encoded form of one character. -/
def encodeChar (c : Char) : List Char :=
  if isUnreserved c then [c] else (String.utf8EncodeChar c).flatMap escapeByte

/-- The encoded form of a text. -/
def encode (s : String) : String :=
  String.ofList (s.toList.flatMap encodeChar)

@[simp] theorem toList_encode (s : String) :
    (encode s).toList = s.toList.flatMap encodeChar := by
  simp [encode]

/-- The byte that the two characters after a `%` spell, if both are
hexadecimal digits. -/
def escaped? (high low : Char) : Option UInt8 :=
  match hexValue? high, hexValue? low with
  | some x, some y => some (UInt8.ofNat (16 * x + y))
  | _, _ => none

/-- The bytes an encoded text stands for. -/
def decodeBytes : List Char → List UInt8
  | '%' :: high :: low :: rest =>
    match escaped? high low with
    | some b => b :: decodeBytes rest
    | none => String.utf8EncodeChar '%' ++ decodeBytes (high :: low :: rest)
  | c :: rest => String.utf8EncodeChar c ++ decodeBytes rest
  | [] => []

/-- The decoded text, provided its bytes are UTF-8. -/
def decode? (s : String) : Option String :=
  String.fromUTF8? ⟨(decodeBytes s.toList).toArray⟩

/-- The decoded text; a text whose bytes are not UTF-8 is left alone. -/
def decode (s : String) : String :=
  (decode? s).getD s

end Percent

end ResourceQuery
