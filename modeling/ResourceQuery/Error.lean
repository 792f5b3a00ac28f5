/-!
# Errors

What can be wrong with a query text.  Positions count the characters of the text
after its shorthand has been expanded.

## Main definitions

* `Error`: the causes.
* `Error.message`: their wording.
-/

namespace ResourceQuery

/-- A reason to refuse a query text. -/
inductive Error where
  | invalidCharacter (character : Char) (position : Nat)
  | mixedConjunction (position : Nat)
  | emptyValue (position : Nat)
  | unmatchedParenthesis (position : Nat)
  | unknownConverter (name : String)
  | invalidValue (converter value : String)
deriving DecidableEq

/-- The wording of an error. -/
def Error.message : Error → String
  | invalidCharacter c p =>
    "invalid character at position " ++ p.repr ++ ": '" ++ String.ofList [c] ++ "'"
  | mixedConjunction p =>
    "cannot mix conjunctions within a group at position " ++ p.repr ++
      ", use parentheses around each set of the same conjunctions (& and |)"
  | emptyValue p => "empty value at position " ++ p.repr ++ " is not allowed"
  | unmatchedParenthesis p => "unmatched parenthesis at position " ++ p.repr
  | unknownConverter name => "unknown value converter: " ++ name
  | invalidValue converter value =>
    "invalid value for the '" ++ converter ++ "' converter: " ++ value

end ResourceQuery
