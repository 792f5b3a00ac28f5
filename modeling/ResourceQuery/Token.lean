import ResourceQuery.Error
import ResourceQuery.Text.Word

/-!
# Tokens

Query text is cut into punctuation and words, the longest runs of word
characters.  White space has no special place: it is as foreign as any other
character that is neither punctuation nor part of a word.

## Main definitions

* `Token`, `Lexeme`: a token, and a token with its position.
* `Token.scan`: the lexemes up to the end or to the first foreign character.
* `Token.tokenize`: all lexemes, closed by the end of the text, or an error.
-/

namespace ResourceQuery

/-- A token of query text. -/
inductive Token where
  | opening
  | closing
  | comma
  | ampersand
  | pipe
  | word (text : String)
  /-- The end of the text. -/
  | finish
deriving DecidableEq

/-- A token and the position of its first character. -/
structure Lexeme where
  token : Token
  start : Nat
deriving DecidableEq

namespace Token

/-- The characters of a token. -/
def chars : Token → List Char
  | opening => ['(']
  | closing => [')']
  | comma => [',']
  | ampersand => ['&']
  | pipe => ['|']
  | word text => text.toList
  | finish => []

/-- The token that a single character of punctuation is. -/
def ofPunctuation? (c : Char) : Option Token :=
  if c = '(' then some opening
  else if c = ')' then some closing
  else if c = ',' then some comma
  else if c = '&' then some ampersand
  else if c = '|' then some pipe
  else none

end Token

namespace Lexeme

/-- The position after the last character. -/
def stop (l : Lexeme) : Nat := l.start + l.token.chars.length

end Lexeme

/-- The result of cutting up a text: its lexemes, and the first character that
belongs to none, with its position. -/
structure Scan where
  lexemes : List Lexeme
  foreign : Option (Char × Nat)

namespace Scan

/-- Put a lexeme in front. -/
def cons (l : Lexeme) (s : Scan) : Scan := ⟨l :: s.lexemes, s.foreign⟩

/-- The error of a foreign character. -/
def error? (s : Scan) : Option Error :=
  s.foreign.map fun (c, position) => .invalidCharacter c position

end Scan

namespace Token

/-- Cut up a text whose first character has the given position. -/
def scanFrom (position : Nat) : List Char → Scan
  | [] => ⟨[], none⟩
  | c :: cs =>
    match ofPunctuation? c with
    | some t => (scanFrom (position + 1) cs).cons ⟨t, position⟩
    | none =>
      if Text.isWordChar c then
        let text := c :: cs.takeWhile Text.isWordChar
        (scanFrom (position + text.length) (cs.dropWhile Text.isWordChar)).cons
          ⟨word (String.ofList text), position⟩
      else ⟨[], some (c, position)⟩
termination_by cs => cs.length
decreasing_by
  · simp
  · have := (List.dropWhile_sublist (l := cs) Text.isWordChar).length_le
    simp only [List.length_cons]
    omega

/-- Cut up a text. -/
def scan (text : String) : Scan := scanFrom 0 text.toList

/-- The lexemes of a text, closed by the end of the text. -/
def tokenize (text : String) : Except Error (List Lexeme) :=
  let s := scan text
  match s.error? with
  | some e => .error e
  | none => .ok (s.lexemes ++ [⟨finish, text.length⟩])

end Token

end ResourceQuery
