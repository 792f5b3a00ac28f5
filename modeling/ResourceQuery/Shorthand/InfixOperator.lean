import ResourceQuery.Comparison
import ResourceQuery.Shorthand.Rule
import ResourceQuery.Text.Word

/-!
# Infix operators

`a<=b` is shorthand for `le(a,b)`, and `a=name=b` for `name(a,b)` with any name.
The operands are words, possibly empty, or flat lists in parentheses; the list on
the left has to have something in it.

## Main definitions

* `Shorthand.operator?`: the operator at the front of a text.
* `Shorthand.infixOperator`: the rule.
* `Shorthand.expandInfix`: the rule applied to a text.
-/

namespace ResourceQuery

namespace Shorthand

/-- Extend an operator that ends in `=` by a name and a second `=`, if they
follow. -/
def namedOperator (op cs : List Char) : List Char × List Char :=
  match cs.dropWhile Text.isNameChar with
  | '=' :: rest => (op ++ cs.takeWhile Text.isNameChar ++ ['='], rest)
  | _ => (op, cs)

/-- The operator at the front of a text: `=`, `<=`, `>=` or `!=`, each possibly
extended by a name and `=`, or `<` or `>`. -/
def operator? : List Char → Option (List Char × List Char)
  -- The longer signs come first, so that `<=` is not read as `<` in front of `=`.
  | '<' :: '=' :: cs => some (namedOperator ['<', '='] cs)
  | '>' :: '=' :: cs => some (namedOperator ['>', '='] cs)
  | '!' :: '=' :: cs => some (namedOperator ['!', '='] cs)
  | '=' :: cs => some (namedOperator ['='] cs)
  | '<' :: cs => some (['<'], cs)
  | '>' :: cs => some (['>'], cs)
  | _ => none

/-- The name of the term that an operator stands for: that of its comparison, or
what stands between its first and its last character. -/
def operatorName (op : List Char) : List Char :=
  if op.length < 3 then
    match Comparison.ofSymbol? (String.ofList op) with
    | some c => c.name.toList
    | none => op
  else op.tail.dropLast

/-- The list in parentheses at the front of a text. -/
def flatList? (mayBeEmpty : Bool) : List Char → Option (List Char × List Char)
  | '(' :: cs =>
    match cs.dropWhile Text.isListChar with
    | ')' :: rest =>
      if (cs.takeWhile Text.isListChar).isEmpty && !mayBeEmpty then none
      else some ('(' :: cs.takeWhile Text.isListChar ++ [')'], rest)
    | _ => none
  | _ => none

/-- The operand at the front of a text: a list, or else the word there. -/
def operand (mayBeEmpty : Bool) (cs : List Char) : List Char × List Char :=
  (flatList? mayBeEmpty cs).getD (cs.takeWhile Text.isWordChar, cs.dropWhile Text.isWordChar)

/-- The infix operator with its operands at the front of a text, in prefix
form. -/
def infixOperator? (cs : List Char) : Option (List Char × List Char) :=
  let (left, afterLeft) := operand false cs
  match operator? afterLeft with
  | some (op, afterOp) =>
    let (right, rest) := operand true afterOp
    some (operatorName op ++ '(' :: left ++ ',' :: right ++ [')'], rest)
  | none => none

theorem namedOperator_length_le (op cs : List Char) :
    (namedOperator op cs).2.length ≤ cs.length := by
  unfold namedOperator
  split
  · next rest h =>
    have := (List.dropWhile_sublist (l := cs) Text.isNameChar).length_le
    rw [h] at this
    simp only [List.length_cons] at this
    simp only
    omega
  · simp

theorem operator?_length_lt {cs op rest : List Char} (h : operator? cs = some (op, rest)) :
    rest.length < cs.length := by
  have named : ∀ (o cs rest : List Char), some (namedOperator o cs) = some (op, rest) →
      rest.length ≤ cs.length := fun o cs rest h => by
    have := namedOperator_length_le o cs
    rw [Option.some.inj h] at this
    exact this
  -- A sign has at least one character, and a name after it only makes it longer.
  unfold operator? at h
  split at h
  · have := named _ _ _ h; simp only [List.length_cons]; omega
  · have := named _ _ _ h; simp only [List.length_cons]; omega
  · have := named _ _ _ h; simp only [List.length_cons]; omega
  · have := named _ _ _ h; simp only [List.length_cons]; omega
  · cases h; simp
  · cases h; simp
  · cases h

theorem operand_length_le (mayBeEmpty : Bool) (cs : List Char) :
    (operand mayBeEmpty cs).2.length ≤ cs.length := by
  unfold operand
  cases h : flatList? mayBeEmpty cs with
  | none => exact (List.dropWhile_sublist _).length_le
  | some p =>
    unfold flatList? at h
    split at h
    · next cs =>
      split at h
      · next rest hrest =>
        have := (List.dropWhile_sublist (l := cs) Text.isListChar).length_le
        rw [hrest] at this
        simp only [List.length_cons] at this
        split at h
        · cases h
        · cases h
          simp only [Option.getD_some, List.length_cons]
          omega
      · cases h
    · cases h

/-- Infix operators become terms. -/
def infixOperator : Rule where
  front? := infixOperator?
  shortens := by
    intro cs out rest h
    unfold infixOperator? at h
    simp only at h
    split at h
    · next op afterOp hop =>
      cases h
      have hleft := operand_length_le false cs
      have hop := operator?_length_lt hop
      have hright := operand_length_le true afterOp
      omega
    · cases h

/-- Expand the infix operators of a text. -/
def expandInfix (text : String) : String :=
  String.ofList (infixOperator.apply text.toList)

end Shorthand

end ResourceQuery
