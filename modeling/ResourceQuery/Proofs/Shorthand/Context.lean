import ResourceQuery.Proofs.Shorthand.Expansion
import ResourceQuery.Proofs.Token.Cutting

/-!
# Shorthand in context

A rule that is applied to a text looks ahead, and may find a match that starts early and takes in
what was meant to stand for itself.  No rule looks past a `(`, a separator or a sign of a group,
but one: a flat list in parentheses is an operand, so a `(` and a comma have to be followed by
something that does not close the list.  Text that stands behind such a character, and does not
close a list, is expanded by itself.

## Main definitions

* `Shorthand.Leads`: a text that ends in front of an argument
* `Shorthand.StopsAt`: what is found at the front of a text does not go past a sign
* `Shorthand.HasEncodedSign`: the text has an encoded sign in it
* `Dialect.prepare`: the expansion up to infix operators

## Main results

* `Rule.apply_append_sign`: a rule that stops at a sign is applied before and after it
* `Shorthand.stopsAt_encodedOperator?`, `Shorthand.stopsAt_slashedList?`,
  `Shorthand.stopsAt_infixOperator?`: the rules stop in front of arguments
* `Dialect.expand_append`: text that ends in front of an argument is expanded by itself
-/

namespace ResourceQuery

namespace Shorthand

open Text

/-- The characters that stand in front of an argument. -/
def leadingSigns : List Char := ['(', ',', '&', '|']

/-- Punctuation is no character of a word, a name, a slashed list, an operator or an encoded sign.
-/
theorem punctuation_spec {c : Char} (hc : c ∈ Token.punctuation) :
    isWordChar c = false ∧ isNameChar c = false ∧ isSlashedChar c = false ∧
      c ∉ operatorSigns ∧ c ∉ ['%', '3', 'C', 'c', 'E', 'e', '/'] := by
  simp only [Token.punctuation, List.mem_cons, List.not_mem_nil, or_false] at hc
  rcases hc with rfl | rfl | rfl | rfl | rfl <;> decide

theorem leadingSigns_subset : leadingSigns ⊆ Token.punctuation := by
  decide

theorem closingSigns_subset : closingSigns ⊆ Token.punctuation := by
  decide

/-- A text that ends in front of an argument: nothing precedes, or one of these characters. -/
def Leads (cs : List Char) : Prop := ∀ c ∈ cs.getLast?, c ∈ leadingSigns

/-- What is found at the front of a text is found also if a sign and more text follow, and nothing
else, as long as the text after the sign passes a test. -/
def StopsAt (sign : Char) (test : List Char → Prop)
    (find : List Char → Option (List Char × List Char)) : Prop :=
  ∀ cs rest, test rest →
    find (cs ++ sign :: rest) = (find cs).map fun m => (m.1, m.2 ++ sign :: rest)

/-- An encoded sign starts with the same two characters, whichever it is. -/
theorem encodedOperator?_cons (a b c : Char) (cs : List Char) :
    encodedOperator? (a :: b :: c :: cs) = if a = '%' ∧ b = '3' then
      encodedOperator? ('%' :: '3' :: c :: cs) else none := by
  by_cases h : a = '%' ∧ b = '3'
  · rw [if_pos h, h.1, h.2]
  · rw [if_neg h]
    unfold encodedOperator?
    split
    · simp_all
    · rfl

/-- A `!` alone is no operator. -/
theorem operator?_not {cs : List Char} (h : ∀ c ∈ cs.head?, c ≠ '=') :
    operator? ('!' :: cs) = none := by
  unfold operator?
  split
  all_goals simp_all

variable {sign : Char}

section Runs

variable {p : Char → Bool} (h : p sign = false) (cs rest : List Char)

include h

/-- What is taken from the front of a text stops at the sign. -/
theorem takeWhile_append_sign : (cs ++ sign :: rest).takeWhile p = cs.takeWhile p := by
  induction cs with
  | nil => simp [h]
  | cons c cs ih => simp only [List.cons_append, List.takeWhile_cons, ih]

theorem dropWhile_append_sign :
    (cs ++ sign :: rest).dropWhile p = cs.dropWhile p ++ sign :: rest := by
  induction cs with
  | nil => simp [h]
  | cons c cs ih =>
    simp only [List.cons_append, List.dropWhile_cons, ih]
    split <;> rfl

end Runs

end Shorthand

namespace Rule

open Shorthand

variable {r : Rule} {sign : Char} {test : List Char → Prop}

theorem front?_nil (r : Rule) : r.front? [] = none := by
  by_contra hsome
  obtain ⟨m, hm⟩ := Option.ne_none_iff_exists'.mp hsome
  exact absurd (r.shortens hm) (by simp)

/-- **A rule that stops at a sign** is applied to what is before the sign and to what is after
it. -/
theorem apply_append_sign (h : StopsAt sign test r.front?) (cs : List Char) {rest : List Char}
    (hrest : test rest) : r.apply (cs ++ sign :: rest) = r.apply cs ++ sign :: r.apply rest := by
  fun_induction r.apply cs with
  | case1 =>
    refine r.apply_of_none ?_
    simpa [r.front?_nil] using h [] rest hrest
  | case2 c cs out after hsome ih =>
    have hfront := h (c :: cs) rest hrest
    rw [hsome, Option.map_some] at hfront
    rw [r.apply_of_some hfront, ih, List.append_assoc]
  | case3 c cs hnone ih =>
    have hfront := h (c :: cs) rest hrest
    rw [hnone, Option.map_none] at hfront
    rw [List.cons_append] at hfront ⊢
    rw [r.apply_of_none hfront, ih, List.cons_append]

/-- The rule applied to a text, if it is switched on. -/
def applyIf (r : Rule) (on : Bool) (cs : List Char) : List Char :=
  if on then r.apply cs else cs

theorem applyIf_nil (r : Rule) (on : Bool) : r.applyIf on [] = [] := by
  cases on with
  | false => rfl
  | true => exact r.apply_nil

/-- **A rule that stops at a sign** rewrites the two sides of it by themselves. -/
theorem applyIf_append_sign (h : StopsAt sign test r.front?) (on : Bool) (cs : List Char)
    {rest : List Char} (hrest : test rest) :
    r.applyIf on (cs ++ sign :: rest) = r.applyIf on cs ++ sign :: r.applyIf on rest := by
  cases on with
  | false => rfl
  | true => exact apply_append_sign h cs hrest

/-- A text is copied, if nothing is found in it. -/
theorem applyIf_append_of_none (r : Rule) {on : Bool} {cs rest : List Char}
    (h : on → ∀ c ds, c :: ds <:+ cs → r.front? (c :: (ds ++ rest)) = none) :
    r.applyIf on (cs ++ rest) = cs ++ r.applyIf on rest := by
  cases on with
  | false => rfl
  | true =>
    change r.apply (cs ++ rest) = cs ++ r.apply rest
    replace h := h rfl
    induction cs with
    | nil => rfl
    | cons c cs ih =>
      have hcs := ih fun d ds hsuffix => h d ds (hsuffix.trans (List.suffix_cons c cs))
      rw [List.cons_append, r.apply_of_none (h c cs List.suffix_rfl), hcs, List.cons_append]

end Rule

namespace Shorthand

open Text

/-! ## Where rules stop -/

section Stops

variable {sign : Char} (hsign : sign ∈ Token.punctuation)

include hsign

theorem ne_equals_of_mem_punctuation : sign ≠ '=' := by
  rintro rfl
  exact absurd hsign (by decide)

theorem signOperator_append_sign (plain orEqual : String) (cs rest : List Char) :
    signOperator plain orEqual (cs ++ sign :: rest) =
      ((signOperator plain orEqual cs).1, (signOperator plain orEqual cs).2 ++ sign :: rest) := by
  have hequal := ne_equals_of_mem_punctuation hsign
  cases cs with
  | nil => simp [signOperator, hequal]
  | cons c cs =>
    by_cases hc : c = '='
    · simp [signOperator, hc]
    · simp [signOperator, hc]

/-- An encoded sign does not reach over punctuation: at most three characters are looked at, and
none of those that are looked for is punctuation. -/
theorem stopsAt_encodedOperator? : StopsAt sign (fun _ => True) encodedOperator? := by
  obtain ⟨-, -, -, -, hne⟩ := punctuation_spec hsign
  simp only [List.mem_cons, List.not_mem_nil, or_false, not_or] at hne
  rintro cs rest -
  match cs with
  | [] => simp [encodedOperator?, hne]
  | [a] => simp [encodedOperator?, hne]
  | [a, b] =>
    rw [List.cons_append, List.singleton_append, encodedOperator?_cons]
    simp [encodedOperator?, hne]
  | a :: b :: c :: cs =>
    simp only [List.cons_append]
    rw [encodedOperator?_cons, encodedOperator?_cons a b c cs]
    simp only [encodedOperator?, signOperator_append_sign hsign]
    split_ifs <;> rfl

/-- A list with slashes does not reach over punctuation. -/
theorem stopsAt_slashedList? : StopsAt sign (fun _ => True) slashedList? := by
  obtain ⟨hword, -, hslashed, -, hne⟩ := punctuation_spec hsign
  simp only [List.mem_cons, List.not_mem_nil, or_false, not_or] at hne
  rintro cs rest -
  unfold slashedList?
  rw [takeWhile_append_sign hword, dropWhile_append_sign hword]
  cases cs.dropWhile isWordChar with
  | nil => simp [hne]
  | cons c after =>
    by_cases hc : c = '/'
    · simp [hc, takeWhile_append_sign hslashed, dropWhile_append_sign hslashed]
    · simp [hc]

theorem namedOperator_append_sign (op cs rest : List Char) :
    namedOperator op (cs ++ sign :: rest) =
      ((namedOperator op cs).1, (namedOperator op cs).2 ++ sign :: rest) := by
  obtain ⟨-, hname, -, -, -⟩ := punctuation_spec hsign
  have hequal := ne_equals_of_mem_punctuation hsign
  unfold namedOperator
  rw [takeWhile_append_sign hname, dropWhile_append_sign hname]
  cases cs.dropWhile isNameChar with
  | nil => simp [hequal]
  | cons c after =>
    by_cases hc : c = '='
    · simp [hc]
    · simp [hc]

/-- An operator does not reach over punctuation; of the characters that it may start with only `!`
is none by itself. -/
theorem stopsAt_operator? : StopsAt sign (fun _ => True) operator? := by
  obtain ⟨-, -, -, hop, -⟩ := punctuation_spec hsign
  have hequal := ne_equals_of_mem_punctuation hsign
  rintro cs rest -
  have hnamed := fun op cs => namedOperator_append_sign hsign op cs rest
  have hhead : ∀ {cs : List Char}, (∀ ds, cs = '=' :: ds → False) →
      ∀ c ∈ (cs ++ sign :: rest).head?, c ≠ '=' := by
    rintro (_ | ⟨d, ds⟩) hcs c hc rfl
    · exact hequal (Option.some.inj hc)
    · cases hc
      exact hcs ds rfl
  fun_cases operator? cs with
  | case1 cs => exact congrArg some (hnamed _ cs)
  | case2 cs => exact congrArg some (hnamed _ cs)
  | case3 cs => exact congrArg some (hnamed _ cs)
  | case4 cs => exact congrArg some (hnamed _ cs)
  | case5 cs hcs => exact operator?_angle '<' (by simp) (hhead hcs)
  | case6 cs hcs => exact operator?_angle '>' (by simp) (hhead hcs)
  | case7 _ _ _ hnot hequals hless hgreater =>
    cases cs with
    | nil => exact operator?_eq_none (by simpa using hop)
    | cons c cs =>
      by_cases hc : c = '!'
      · subst hc
        exact operator?_not (hhead fun ds hds => hnot ds (by rw [hds]))
      · have hsigns : c ∉ operatorSigns := by
          simp only [operatorSigns, List.mem_cons, List.not_mem_nil, or_false, not_or]
          exact ⟨fun h => hless cs (by rw [h]), fun h => hgreater cs (by rw [h]), hc,
            fun h => hequals cs (by rw [h])⟩
        exact operator?_eq_none (by simpa using hsigns)

end Stops

section Leading

variable {sign : Char} (hsign : sign ∈ leadingSigns)

include hsign

/-- A list in parentheses stops at a sign, if the text behind the sign `OpensFirst`.  The list ends
in front of the sign, or the sign would be in it and no `)` follows that could end it. -/
theorem stopsAt_flatList? (mayBeEmpty : Bool) :
    StopsAt sign OpensFirst (flatList? mayBeEmpty) := by
  have hclosing : sign ≠ ')' := by
    rintro rfl
    exact absurd hsign (by decide)
  intro cs rest hrest
  match cs with
  | [] =>
    by_cases hopening : sign = '('
    · rw [hopening, List.nil_append, flatList?_of_opensFirst mayBeEmpty hrest]
      rfl
    · exact flatList?_eq_none (by simpa using hopening)
  | c :: cs =>
    by_cases hc : c = '('
    · subst hc
      rw [List.cons_append]
      by_cases hopens : OpensFirst cs
      · rw [flatList?_of_opensFirst mayBeEmpty hopens,
          flatList?_of_opensFirst mayBeEmpty (hopens.append (hrest.cons hclosing))]
        rfl
      · obtain ⟨body, after, rfl, hbody⟩ := exists_of_not_opensFirst hopens
        rw [List.append_assoc, List.cons_append, flatList?_of_isListChar mayBeEmpty hbody,
          flatList?_of_isListChar mayBeEmpty hbody]
        split_ifs <;> rfl
    · rw [flatList?_eq_none (by simpa using hc), flatList?_eq_none (by simpa using hc)]
      rfl

/-- An operand stops at a sign, if behind the sign there is no `)` that could end a list. -/
theorem operand_append_sign (mayBeEmpty : Bool) (cs : List Char) {rest : List Char}
    (hrest : OpensFirst rest) : operand mayBeEmpty (cs ++ sign :: rest) =
      ((operand mayBeEmpty cs).1, (operand mayBeEmpty cs).2 ++ sign :: rest) := by
  obtain ⟨hword, -⟩ := punctuation_spec (leadingSigns_subset hsign)
  unfold operand
  rw [stopsAt_flatList? hsign mayBeEmpty cs rest hrest, takeWhile_append_sign hword,
    dropWhile_append_sign hword]
  cases flatList? mayBeEmpty cs <;> rfl

/-- A comparison stops at a sign on the same condition as its operands. -/
theorem stopsAt_infixOperator? : StopsAt sign OpensFirst infixOperator? := by
  intro cs rest hrest
  unfold infixOperator?
  dsimp only
  rw [operand_append_sign hsign false cs hrest,
    stopsAt_operator? (leadingSigns_subset hsign) _ rest trivial]
  cases operator? (operand false cs).2 with
  | none => rfl
  | some m => simp [operand_append_sign hsign true m.2 hrest]

end Leading

/-! ## What rules copy -/

/-- The text has `%3C` or `%3E` in it, in capitals or not. -/
def HasEncodedSign (cs : List Char) : Prop := ∃ c ∈ ['C', 'c', 'E', 'e'], ['%', '3', c] <:+: cs

/-- Nothing is decoded where no encoded sign is. -/
theorem encodedOperator?_eq_none {cs : List Char}
    (h : ∀ c ∈ ['C', 'c', 'E', 'e'], ¬ ['%', '3', c] <+: cs) : encodedOperator? cs = none := by
  unfold encodedOperator?
  split
  · next c rest =>
    have hc : c ∉ ['C', 'c', 'E', 'e'] := fun hmem => h c hmem ⟨rest, rfl⟩
    simp only [List.mem_cons, List.not_mem_nil, or_false, not_or] at hc
    simp [hc]
  · rfl

section Encoded

variable {on : Bool} {cs rest : List Char}

/-- A text without percent signs is left alone. -/
theorem decode_of_notMem (h : '%' ∉ cs) :
    encodedOperator.applyIf on (cs ++ rest) = cs ++ encodedOperator.applyIf on rest := by
  refine encodedOperator.applyIf_append_of_none fun _ c ds hsuffix => ?_
  refine encodedOperator?_eq_none fun d _ hstarts => h ?_
  rw [(List.cons_prefix_cons.mp hstarts).1]
  exact hsuffix.subset List.mem_cons_self

theorem decode_cons {c : Char} (hc : c ≠ '%') :
    encodedOperator.applyIf on (c :: rest) = c :: encodedOperator.applyIf on rest := by
  have hnotMem : '%' ∉ [c] := by simpa using hc.symm
  exact decode_of_notMem hnotMem

/-- A text without encoded signs is copied, if no sign goes on in what follows. -/
theorem decode_of_not_hasEncodedSign (h : on → ¬ HasEncodedSign cs)
    (hrest : ∀ c ∈ rest.head?, isNameChar c = false) :
    encodedOperator.applyIf on (cs ++ rest) = cs ++ encodedOperator.applyIf on rest := by
  refine encodedOperator.applyIf_append_of_none fun hon c ds hsuffix => ?_
  refine encodedOperator?_eq_none fun e he hstarts => ?_
  have hthree : ¬ ['3', e] <+: rest := by
    rintro ⟨after, rfl⟩
    exact absurd (hrest '3' rfl) (by decide)
  have hlast : ¬ [e] <+: rest := by
    rintro ⟨after, rfl⟩
    have hname := hrest e rfl
    simp only [List.mem_cons, List.not_mem_nil, or_false] at he
    rcases he with rfl | rfl | rfl | rfl <;> revert hname <;> decide
  -- The sign is all in the text, or its last or its last two characters are in the rest.
  match ds with
  | [] => exact hthree (List.cons_prefix_cons.mp hstarts).2
  | [d] => exact hlast (List.cons_prefix_cons.mp (List.cons_prefix_cons.mp hstarts).2).2
  | d :: d' :: ds =>
    have hfront : ['%', '3', e] <+: c :: d :: d' :: ds :=
      List.prefix_of_prefix_length_le hstarts (List.prefix_append _ rest) (by simp)
    exact h hon ⟨e, he, hfront.isInfix.trans hsuffix.isInfix⟩

end Encoded

/-- What a run stops at is in the text or stands in front of what follows it. -/
theorem mem_or_of_dropWhile {p : Char → Bool} {cs rest : List Char}
    (hrest : ∀ c ∈ rest.head?, p c = false) {c : Char}
    (h : c ∈ ((cs ++ rest).dropWhile p).head?) : c ∈ cs ∨ c ∈ rest.head? := by
  induction cs with
  | nil =>
    cases rest with
    | nil => cases h
    | cons d rest =>
      rw [List.nil_append, List.dropWhile_cons_of_neg (by simpa using hrest d rfl)] at h
      exact .inr h
  | cons d cs ih =>
    rw [List.cons_append, List.dropWhile_cons] at h
    split_ifs at h
    · exact (ih h).imp_left (List.mem_cons_of_mem d)
    · cases h
      exact .inl List.mem_cons_self

/-- A text without slashes is left alone, if what follows does not go on with it. -/
theorem expandSlashes_of_notMem {on : Bool} {cs rest : List Char} (h : '/' ∉ cs)
    (hrest : ∀ c ∈ rest.head?, isSlashedChar c = false) :
    slashedList.applyIf on (cs ++ rest) = cs ++ slashedList.applyIf on rest := by
  refine slashedList.applyIf_append_of_none fun _ c ds hsuffix => ?_
  change slashedList? (c :: ds ++ rest) = none
  unfold slashedList?
  split
  · next after hafter =>
    have hends : EndsWord rest := by
      intro d hd
      have hslashed := hrest d hd
      simp only [isSlashedChar, Bool.or_eq_false_iff] at hslashed
      exact hslashed.1
    have hslash : '/' ∈ ((c :: ds ++ rest).dropWhile isWordChar).head? := by rw [hafter]; rfl
    rcases mem_or_of_dropWhile hends hslash with hmem | hmem
    · exact absurd (hsuffix.subset hmem) h
    · exact absurd (hrest '/' hmem) (by decide)
  · rfl

theorem isSlashedChar_of_mem_closingSigns {c : Char} (hc : c ∈ closingSigns) :
    isSlashedChar c = false :=
  (punctuation_spec (closingSigns_subset hc)).2.2.1

section Back

variable {back : List Char}

/-- A text that ends an argument still does so after a rule that copies what ends it. -/
theorem closes_applyIf {r : Rule} (hr : ∀ c ∈ closingSigns, ∀ rest, r.front? (c :: rest) = none)
    (on : Bool) (hback : Closes back) : Closes (r.applyIf on back) := by
  cases on with
  | false => exact hback
  | true =>
    cases back with
    | nil =>
      rw [Rule.applyIf, if_pos rfl, Rule.apply_nil]
      exact closes_nil
    | cons c back =>
      have hc := closes_cons.mp hback
      rw [Rule.applyIf, if_pos rfl, r.apply_of_none (hr c hc back)]
      exact closes_cons.mpr hc

theorem closes_decode (on : Bool) (hback : Closes back) :
    Closes (encodedOperator.applyIf on back) := by
  refine closes_applyIf (fun c hc rest => encodedOperator?_eq_none fun d _ hstarts => ?_) on hback
  rw [← (List.cons_prefix_cons.mp hstarts).1] at hc
  exact absurd hc (by decide)

end Back

end Shorthand

/-! ## All rules -/

namespace Dialect

open Shorthand

variable {d : Dialect} {back : List Char}

/-- A text with its shorthand expanded up to infix operators. -/
def prepare (d : Dialect) (cs : List Char) : List Char :=
  slashedList.applyIf d.slashedLists (encodedOperator.applyIf d.encodedOperators cs)

/-- The expansion is that of the infix rule after those of the others. -/
theorem expand_eq (hd : d.infixOperators) (text : String) :
    d.expand text = String.ofList (infixOperator.apply (d.prepare text.toList)) := by
  unfold expand prepare Rule.applyIf decodeOperators expandSlashes expandInfix
  rw [if_pos hd]
  split_ifs <;> simp

theorem prepare_nil : d.prepare [] = [] := by
  rw [prepare, Rule.applyIf_nil, Rule.applyIf_nil]

/-- The rules before the infix rule rewrite the two sides of punctuation by themselves. -/
theorem prepare_append_sign {sign : Char} (hsign : sign ∈ Token.punctuation)
    (cs rest : List Char) :
    d.prepare (cs ++ sign :: rest) = d.prepare cs ++ sign :: d.prepare rest := by
  unfold prepare
  rw [Rule.applyIf_append_sign (stopsAt_encodedOperator? hsign) _ cs trivial,
    Rule.applyIf_append_sign (stopsAt_slashedList? hsign) _ _ trivial]

/-- The rules before the infix rule leave alone what closes an operand. -/
theorem closes_prepare (hback : Closes back) : Closes (d.prepare back) := by
  refine closes_applyIf (fun c hc rest => ?_) _ (closes_decode _ hback)
  have hslashed := isSlashedChar_of_mem_closingSigns hc
  change slashedList? (c :: rest) = none
  simp only [isSlashedChar, Bool.or_eq_false_iff, beq_eq_false_iff_ne] at hslashed
  simp [slashedList?, List.dropWhile, hslashed]

/-- Behind what decoding leaves without slashes, the rest is expanded by itself. -/
theorem prepare_append {cs cs' : List Char} (hback : Closes back)
    (hdecode : encodedOperator.applyIf d.encodedOperators (cs ++ back) =
      cs' ++ encodedOperator.applyIf d.encodedOperators back) (hslash : '/' ∉ cs') :
    d.prepare (cs ++ back) = cs' ++ d.prepare back := by
  unfold prepare
  rw [hdecode, expandSlashes_of_notMem hslash]
  intro c hc
  exact isSlashedChar_of_mem_closingSigns (closes_decode d.encodedOperators hback c hc)

/-- **Text that ends in front of an argument is expanded by itself.** -/
theorem expand_append (hd : d.infixOperators) {front : String} (hfront : Leads front.toList)
    {text : String} (htext : OpensFirst (d.prepare text.toList)) :
    d.expand (front ++ text) = d.expand front ++ d.expand text := by
  have hnil : OpensFirst (d.prepare []) := by
    rw [prepare_nil]
    exact opensFirst_of_isListChar (by simp)
  rw [expand_eq hd, expand_eq hd, expand_eq hd, String.toList_append, ← String.ofList_append]
  congr 1
  rcases List.eq_nil_or_concat front.toList with hempty | ⟨cs, sign, hlast⟩
  · rw [hempty, List.nil_append, prepare_nil, Rule.apply_nil, List.nil_append]
  · have hsign : sign ∈ leadingSigns := hfront sign (by simp [hlast])
    have hsplit : ∀ {rest}, OpensFirst (d.prepare rest) →
        infixOperator.apply (d.prepare (cs ++ sign :: rest)) =
          infixOperator.apply (d.prepare cs) ++ sign :: infixOperator.apply (d.prepare rest) := by
      intro rest hrest
      rw [prepare_append_sign (leadingSigns_subset hsign)]
      exact Rule.apply_append_sign (stopsAt_infixOperator? hsign) _ hrest
    rw [hlast, List.concat_eq_append, List.append_assoc, List.singleton_append, hsplit htext,
      hsplit hnil, prepare_nil, Rule.apply_nil, List.append_assoc, List.singleton_append]

/-- A text in context, from what the infix rule makes of it and the text after it. -/
theorem expand_of_apply (hd : d.infixOperators) {front text result back : String}
    (hfront : Leads front.toList)
    (hopens : OpensFirst (d.prepare (text.toList ++ back.toList)))
    (happly : infixOperator.apply (d.prepare (text.toList ++ back.toList)) =
      result.toList ++ infixOperator.apply (d.prepare back.toList)) :
    d.expand (front ++ text ++ back) = d.expand front ++ result ++ d.expand back := by
  rw [String.append_assoc, expand_append hd hfront (by rwa [String.toList_append]),
    expand_eq hd (text ++ back), String.toList_append, happly, String.ofList_append,
    String.ofList_toList, expand_eq hd back, String.append_assoc]

end Dialect

end ResourceQuery
