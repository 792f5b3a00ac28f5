import ResourceQuery.Shorthand.Rule
import ResourceQuery.Text.Word

/-!
# Slashed lists

A run of word characters with slashes in it is a list: `a/b/c` is `(a,b,c)`.

## Main definitions

* `Shorthand.slashedList`: the rule.
* `Shorthand.expandSlashes`: the rule applied to a text.
-/

namespace ResourceQuery

namespace Shorthand

/-- A character of a word, or a slash. -/
def isSlashedChar (c : Char) : Bool :=
  Text.isWordChar c || c == '/'

/-- A run with slashes as a list. -/
def listOfSlashed (run : List Char) : List Char :=
  '(' :: run.map (fun c => if c = '/' then ',' else c) ++ [')']

/-- The slashed list at the front of a text: a possibly empty word, a slash, and
the word characters and slashes after it. -/
def slashedList? (cs : List Char) : Option (List Char × List Char) :=
  match cs.dropWhile Text.isWordChar with
  | '/' :: after =>
    some (listOfSlashed
        (cs.takeWhile Text.isWordChar ++ '/' :: after.takeWhile isSlashedChar),
      after.dropWhile isSlashedChar)
  | _ => none

/-- Runs with slashes become lists. -/
def slashedList : Rule where
  front? := slashedList?
  shortens := by
    intro cs out rest h
    unfold slashedList? at h
    split at h
    · next after hafter =>
      cases h
      have hle := (List.dropWhile_sublist (l := cs) Text.isWordChar).length_le
      have hlt := (List.dropWhile_sublist (l := after) isSlashedChar).length_le
      rw [hafter] at hle
      simp only [List.length_cons] at hle
      omega
    · cases h

/-- Expand the slashed lists of a text. -/
def expandSlashes (text : String) : String :=
  String.ofList (slashedList.apply text.toList)

end Shorthand

end ResourceQuery
