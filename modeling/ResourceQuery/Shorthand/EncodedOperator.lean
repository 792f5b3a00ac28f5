import ResourceQuery.Shorthand.Rule

/-!
# Encoded operators

A transport may percent-encode the comparison signs.  `%3C` and `%3E`, with an
optional `=` after them, are turned into the operators `=lt=`, `=le=`, `=gt=` and
`=ge=`.

## Main definitions

* `Shorthand.encodedOperator`: the rule.
* `Shorthand.decodeOperators`: the rule applied to a text.
-/

namespace ResourceQuery

namespace Shorthand

/-- The operator of a sign and of the text after it, with what follows. -/
def signOperator (plain orEqual : String) : List Char → List Char × List Char
  | '=' :: rest => (orEqual.toList, rest)
  | rest => (plain.toList, rest)

/-- The encoded operator at the front of a text. -/
def encodedOperator? : List Char → Option (List Char × List Char)
  | '%' :: '3' :: c :: rest =>
    if c = 'C' ∨ c = 'c' then some (signOperator "=lt=" "=le=" rest)
    else if c = 'E' ∨ c = 'e' then some (signOperator "=gt=" "=ge=" rest)
    else none
  | _ => none

theorem signOperator_length_le (plain orEqual : String) (cs : List Char) :
    (signOperator plain orEqual cs).2.length ≤ cs.length := by
  unfold signOperator
  split <;> simp

/-- Encoded comparison signs become operators. -/
def encodedOperator : Rule where
  front? := encodedOperator?
  shortens := by
    intro cs out rest h
    unfold encodedOperator? at h
    split at h
    · next c cs =>
      have hlt := signOperator_length_le "=lt=" "=le=" cs
      have hgt := signOperator_length_le "=gt=" "=ge=" cs
      split at h
      · simp only [Option.some.injEq] at h
        rw [h] at hlt
        simp only [List.length_cons] at hlt ⊢
        omega
      · split at h
        · simp only [Option.some.injEq] at h
          rw [h] at hgt
          simp only [List.length_cons] at hgt ⊢
          omega
        · cases h
    · cases h

/-- Decode the comparison signs of a text. -/
def decodeOperators (text : String) : String :=
  String.ofList (encodedOperator.apply text.toList)

end Shorthand

end ResourceQuery
