/-!
# Replacement rules

Shorthand is expanded by rules.  A rule looks at the front of a text and either
replaces some of it or leaves it alone.  Applying a rule goes through the text
from left to right: where the rule replaces, it goes on after the replaced
characters, and elsewhere it copies one character.

## Main definitions

* `Rule`: the replacement at the front of a text, always of some characters.
* `Rule.apply`: the rule applied to a whole text.
-/

namespace ResourceQuery

/-- A replacement at the front of a text: what it becomes and what follows. -/
structure Rule where
  front? : List Char → Option (List Char × List Char)
  shortens : ∀ {cs out rest}, front? cs = some (out, rest) → rest.length < cs.length

namespace Rule

/-- Apply a rule from left to right. -/
def apply (r : Rule) : List Char → List Char
  | [] => []
  | c :: cs =>
    match _h : r.front? (c :: cs) with
    | some (out, rest) => out ++ r.apply rest
    | none => c :: r.apply cs
termination_by cs => cs.length
decreasing_by
  · exact r.shortens _h
  · simp

@[simp] theorem apply_nil (r : Rule) : r.apply [] = [] := by
  rw [apply]

theorem apply_of_some (r : Rule) {cs out rest : List Char}
    (h : r.front? cs = some (out, rest)) : r.apply cs = out ++ r.apply rest := by
  cases cs with
  | nil => exact absurd (r.shortens h) (by simp)
  | cons c cs =>
    rw [apply]
    split
    · next h' => rw [h] at h'; cases h'; rfl
    · next h' => rw [h] at h'; cases h'

theorem apply_of_none (r : Rule) {c : Char} {cs : List Char}
    (h : r.front? (c :: cs) = none) : r.apply (c :: cs) = c :: r.apply cs := by
  rw [apply]
  split
  · next h' => rw [h] at h'; cases h'
  · rfl

end Rule

end ResourceQuery
