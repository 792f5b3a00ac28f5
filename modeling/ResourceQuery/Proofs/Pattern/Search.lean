import Mathlib.Data.List.Basic
import Mathlib.Logic.Function.Iterate
import Mathlib.Logic.Relation
import ResourceQuery.Pattern.Regex

/-!
# What the search finds

A regular expression denotes a relation between the places of a text: it spans from one to the
other.  The search does not look at pairs of places.  It carries a set of them through the
expression, and what has to be seen is that it arrives at the places which some place of the set is
related to.

Every operation on sets of places is shown to follow a relation, and the relations of the parts of
an expression are put together as its sets are.  Only a star asks for an argument: the search makes
a fixed number of rounds, which suffices since each round but the last adds a place.

## Main definitions

* `Regex.Spans`: the meaning of an expression, as a relation between places
* `Places.Follows`: an operation on sets of places goes along a relation

## Main results

* `Places.Follows.grow`: as many rounds as there are places reach everything
* `Regex.follows_advance`: the search goes along the meaning of the expression
* `Regex.isMatch_iff`: an expression is found if it spans from some place to another
-/

namespace ResourceQuery

/-! ## Meaning of expressions -/

/-- A fixed number of steps of a relation. -/
def Rounds (step : ℕ → ℕ → Prop) : ℕ → ℕ → ℕ → Prop
  | 0 => Eq
  | n + 1 => Relation.Comp step (Rounds step n)

namespace Regex

/-- The expression leads from one place of the text to another.  Places are counted by the
characters before them. -/
def Spans (text : List Char) : Regex → ℕ → ℕ → Prop
  | empty => Eq
  | oneOf holds => fun i j => j = i + 1 ∧ ∃ c, text[i]? = some c ∧ holds c
  | look holds => fun i j => i = j ∧ holds (text.take i).getLast? (text.drop i).head?
  | seq r s => Relation.Comp (Spans text r) (Spans text s)
  | alt r s => fun i j => Spans text r i j ∨ Spans text s i j
  | star r => Relation.ReflTransGen (Spans text r)
  | times r n => Rounds (Spans text r) n

end Regex

/-! ## Sets of places -/

namespace Places

/-- The place is in the set. -/
def Holds (x : Places) (i : ℕ) : Prop := x[i]? = some true

theorem Holds.lt_length {x : Places} {i : ℕ} (h : x.Holds i) : i < x.length :=
  (List.getElem?_eq_some_iff.mp h).1

theorem holds_all (text : List Char) (i : ℕ) : (all text).Holds i ↔ i ≤ text.length := by
  have hlt : (all text).Holds i ↔ i < text.length + 1 := by
    simp [Holds, all, List.getElem?_replicate]
  exact hlt.trans Nat.lt_succ_iff

theorem holds_union {x y : Places} (h : x.length = y.length) (i : ℕ) :
    (union x y).Holds i ↔ x.Holds i ∨ y.Holds i := by
  unfold Holds union
  rw [List.getElem?_zipWith]
  rcases Nat.lt_or_ge i x.length with hi | hi
  · simp [hi, h ▸ hi]
  · simp [hi, h ▸ hi]

theorem length_union {x y : Places} (h : x.length = y.length) :
    (union x y).length = x.length := by
  simp [union, h]

/-- A union that adds anything leaves fewer places out. -/
theorem union_eq_or_count_lt (x y : Places) (h : x.length = y.length) :
    union x y = x ∨ (union x y).count false < x.count false := by
  induction x generalizing y with
  | nil => exact .inl rfl
  | cons a x ih =>
    obtain _ | ⟨b, y⟩ := y
    · cases h
    · have ih := ih y (Nat.succ.inj h)
      have hle : (union x y).count false ≤ x.count false := by
        rcases ih with ih | ih
        · exact Nat.le_of_eq (congrArg _ ih)
        · exact Nat.le_of_lt ih
      change (a || b) :: union x y = a :: x ∨ ((a || b) :: union x y).count false < _
      cases a with
      | true => simpa using ih
      | false =>
        cases b with
        | true => exact .inr (by simpa [Nat.lt_succ_iff] using hle)
        | false => simpa using ih

/-- An operation on the sets of places of a text goes along a relation: it gives the places that
some place of the set is related to. -/
structure Follows (size : ℕ) (round : Places → Places) (step : ℕ → ℕ → Prop) : Prop where
  length_eq : ∀ {x : Places}, x.length = size → (round x).length = size
  holds_iff : ∀ {x : Places} {j : ℕ}, x.length = size →
    ((round x).Holds j ↔ ∃ i, x.Holds i ∧ step i j)

namespace Follows

variable {size : ℕ} {round next : Places → Places} {step further : ℕ → ℕ → Prop}

theorem stay : Follows size id Eq where
  length_eq hx := hx
  holds_iff _ := by simp

/-- One round after another follows the composition of their steps. -/
theorem comp (h : Follows size round step) (hnext : Follows size next further) :
    Follows size (fun x => next (round x)) (Relation.Comp step further) where
  length_eq hx := hnext.length_eq (h.length_eq hx)
  holds_iff hx := by
    rw [hnext.holds_iff (h.length_eq hx)]
    simp only [h.holds_iff hx, Relation.Comp]
    tauto

/-- Two rounds at once follow the union of their steps. -/
theorem union (h : Follows size round step) (hnext : Follows size next further) :
    Follows size (fun x => Places.union (round x) (next x)) fun i j => step i j ∨ further i j where
  length_eq hx := by
    rw [length_union ((h.length_eq hx).trans (hnext.length_eq hx).symm), h.length_eq hx]
  holds_iff hx := by
    rw [holds_union ((h.length_eq hx).trans (hnext.length_eq hx).symm), h.holds_iff hx,
      hnext.holds_iff hx]
    simp only [and_or_left, exists_or]

/-! ### Single steps -/

theorem past (holds : Char → Bool) (text : List Char) :
    Follows (text.length + 1) (Places.past holds text)
      fun i j => j = i + 1 ∧ ∃ c, text[i]? = some c ∧ holds c where
  length_eq hx := by simp [Places.past, hx]
  holds_iff {x j} hx := by
    unfold Holds Places.past
    cases j with
    | zero => simp
    | succ j =>
      simp only [List.getElem?_cons_succ, List.getElem?_zipWith_eq_some, Bool.and_eq_true]
      constructor
      · rintro ⟨_, c, hi, hc, rfl, hholds⟩
        exact ⟨j, hi, rfl, c, hc, hholds⟩
      · rintro ⟨i, hi, hij, c, hc, hholds⟩
        cases Nat.succ.inj hij
        exact ⟨true, c, hi, hc, rfl, hholds⟩

end Follows

theorem length_neighbours (before : Option Char) (text : List Char) :
    (neighbours before text).length = text.length + 1 := by
  induction text generalizing before with
  | nil => rfl
  | cons c cs ih => simp [neighbours, ih]

theorem getElem?_neighbours (before : Option Char) {text : List Char} {i : ℕ}
    (h : i ≤ text.length) :
    (neighbours before text)[i]? =
      some ((text.take i).getLast?.or before, (text.drop i).head?) := by
  induction text generalizing before i with
  | nil =>
    cases Nat.le_zero.mp h
    rfl
  | cons c cs ih =>
    cases i with
    | zero => simp [neighbours]
    | succ i =>
      rw [neighbours, List.getElem?_cons_succ, ih _ (Nat.le_of_succ_le_succ h), List.take_succ_cons,
        List.getLast?_cons, List.drop_succ_cons]
      cases (cs.take i).getLast? <;> rfl

namespace Follows

/-- Looking around follows equality, at the places where the condition holds. -/
theorem lookAround (holds : Option Char → Option Char → Bool) (text : List Char) :
    Follows (text.length + 1) (Places.lookAround holds text)
      fun i j => i = j ∧ holds (text.take i).getLast? (text.drop i).head? where
  length_eq hx := by simp [Places.lookAround, hx, length_neighbours]
  holds_iff {x j} hx := by
    unfold Holds Places.lookAround
    simp only [List.getElem?_zipWith_eq_some, Bool.and_eq_true]
    constructor
    · rintro ⟨_, n, hj, hn, rfl, hholds⟩
      have hlt : j < x.length := Holds.lt_length hj
      have hle : j ≤ text.length := by omega
      rw [getElem?_neighbours none hle, Option.or_none] at hn
      cases hn
      exact ⟨j, hj, rfl, hholds⟩
    · rintro ⟨i, hi, rfl, hholds⟩
      have hlt : i < x.length := Holds.lt_length hi
      have hle : i ≤ text.length := by omega
      exact ⟨true, _, hi, getElem?_neighbours none hle, rfl, by simpa using hholds⟩

/-! ### Repeated steps -/

variable {size : ℕ} {round : Places → Places} {step : ℕ → ℕ → Prop}
variable (h : Follows size round step)

include h

/-- A set that a round adds nothing to is not left by any number of steps. -/
theorem holds_of_reflTransGen {x : Places} (hx : x.length = size)
    (hclosed : ∀ j, (round x).Holds j → x.Holds j) {i j : ℕ} (hi : x.Holds i)
    (hij : Relation.ReflTransGen step i j) : x.Holds j := by
  induction hij with
  | refl => exact hi
  | tail _ hstep ih => exact hclosed _ ((h.holds_iff hx).mpr ⟨_, ih, hstep⟩)

/-- Rounds as many as there are places outside the set reach every place there is to reach.  The
induction is on the rounds left: one of them takes in a place, or nothing is left to take in. -/
theorem grow_spec {n : ℕ} {x : Places} (hx : x.length = size) (hn : x.count false ≤ n) :
    (Places.grow round n x).length = size ∧
      ∀ j, (Places.grow round n x).Holds j ↔ ∃ i, x.Holds i ∧ Relation.ReflTransGen step i j := by
  have hself : ∀ {x : Places}, x.length = size → (∀ j, (round x).Holds j → x.Holds j) →
      x.length = size ∧ ∀ j, x.Holds j ↔ ∃ i, x.Holds i ∧ Relation.ReflTransGen step i j := by
    intro x hx hclosed
    refine ⟨hx, fun j => ⟨fun hj => ⟨j, hj, .refl⟩, ?_⟩⟩
    rintro ⟨i, hi, hij⟩
    exact h.holds_of_reflTransGen hx hclosed hi hij
  induction n generalizing x with
  | zero =>
    rw [Places.grow]
    refine hself hx fun j hj => ?_
    have hj : j < x.length := by
      rw [hx, ← h.length_eq hx]
      exact hj.lt_length
    have hmem : false ∉ x := List.count_eq_zero.mp (Nat.le_zero.mp hn)
    have hget : x[j] ≠ false := fun heq => hmem (heq ▸ List.getElem_mem hj)
    rw [Holds, List.getElem?_eq_getElem hj, eq_true_of_ne_false hget]
  | succ n ih =>
    have hround : x.length = (round x).length := hx.trans (h.length_eq hx).symm
    rw [Places.grow]
    split_ifs with heq
    · refine hself hx fun j hj => ?_
      rw [← heq, holds_union hround]
      exact .inr hj
    · have hlt := (union_eq_or_count_lt x (round x) hround).resolve_left heq
      obtain ⟨hlength, hholds⟩ := ih ((length_union hround).trans hx) (by omega)
      refine ⟨hlength, fun j => (hholds j).trans ?_⟩
      simp only [holds_union hround, h.holds_iff hx]
      constructor
      · rintro ⟨i, hi | ⟨k, hk, hki⟩, hij⟩
        · exact ⟨i, hi, hij⟩
        · exact ⟨k, hk, .head hki hij⟩
      · rintro ⟨i, hi, hij⟩
        exact ⟨i, .inl hi, hij⟩

/-- **As many rounds as there are places reach every place that steps lead to.** -/
theorem grow : Follows size (Places.grow round size) (Relation.ReflTransGen step) where
  length_eq hx := (h.grow_spec hx (hx ▸ List.count_le_length)).1
  holds_iff hx := (h.grow_spec hx (hx ▸ List.count_le_length)).2 _

theorem iterate (n : ℕ) : Follows size (Places.iterate round n) (Rounds step n) := by
  have heq : Places.iterate round n = round^[n] := by
    funext x
    induction n generalizing x with
    | zero => rfl
    | succ n ih =>
      rw [Places.iterate, ih, Function.iterate_succ_apply]
      split_ifs with hfix
      · rw [hfix, Function.iterate_fixed hfix]
      · rfl
  rw [heq]
  clear heq
  induction n with
  | zero => exact stay
  | succ n ih => exact h.comp ih

end Follows

end Places

/-! ## The search -/

namespace Regex

/-- **The search carries sets of places along the meaning of the expression.** -/
theorem follows_advance (text : List Char) (r : Regex) :
    Places.Follows (text.length + 1) (advance text r) (Spans text r) := by
  induction r with
  | empty => exact .stay
  | oneOf holds => exact .past holds text
  | look holds => exact .lookAround holds text
  | seq r s ihr ihs => exact ihr.comp ihs
  | alt r s ihr ihs => exact ihr.union ihs
  | star r ih => exact ih.grow
  | times r n ih => exact ih.iterate n

/-- **An expression is found in a text if it spans from one of its places to another.** -/
theorem isMatch_iff (r : Regex) (text : List Char) :
    r.isMatch text = true ↔ ∃ i j, i ≤ text.length ∧ Spans text r i j := by
  have hany : r.isMatch text = true ↔ ∃ j, (advance text r (Places.all text)).Holds j := by
    simp [isMatch, Places.Holds, ← List.mem_iff_getElem?]
  rw [hany]
  have hlength : (Places.all text).length = text.length + 1 := List.length_replicate
  simp only [(follows_advance text r).holds_iff hlength, Places.holds_all]
  exact exists_comm

end Regex

end ResourceQuery
