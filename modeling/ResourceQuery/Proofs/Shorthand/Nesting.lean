import ResourceQuery.Proofs.Shorthand.EncodedSign

/-!
# Shorthand in nested text

Text with balanced parentheses, and with separators and signs of groups inside of them only, is
expanded by itself, whatever text ends it: no rule looks across a `)` or a separator into what
follows, for a flat list that is opened in such a text is closed there too.  And its expansion is
of the same kind, since each rule takes nested text and writes nested text.

## Main definitions

* `Text.nests`: the text is nested in some open parentheses
* `Rule.Local`: a rule that keeps to nested text
* `Dialect.expandChars`: the expansion of a text, as characters

## Main results

* `Rule.Local.apply_append`: nested text is expanded by itself
* `Shorthand.local_encodedOperator`, `Shorthand.local_slashedList`,
  `Shorthand.local_infixOperator`: the rules keep to nested text
* `Dialect.expandChars_intercalate`, `Dialect.expandChars_application`: texts with separators
  between them are expanded one by one
-/

namespace ResourceQuery

namespace Text

open Token (punctuation)

/-- A text with balanced parentheses, of which some are open at its front, and with separators and
signs of groups inside of parentheses only. -/
def nests (depth : Nat) : List Char → Bool
  | [] => depth == 0
  | c :: cs =>
    if c = '(' then nests (depth + 1) cs
    else if c = ')' then depth != 0 && nests (depth - 1) cs
    else decide (depth ≠ 0 ∨ c ∉ [',', '&', '|']) && nests depth cs

variable {m n : Nat} {c : Char} {cs as bs : List Char}

@[simp] theorem nests_nil : nests n [] ↔ n = 0 := by
  simp [nests]

@[simp] theorem nests_opening : nests n ('(' :: cs) = nests (n + 1) cs := by
  simp [nests]

@[simp] theorem nests_closing : nests n (')' :: cs) ↔ ∃ k, n = k + 1 ∧ nests k cs := by
  cases n <;> simp [nests]

/-- A separator may stand at any depth but the outermost. -/
theorem nests_separator (hc : c ∈ [',', '&', '|']) :
    nests n (c :: cs) ↔ n ≠ 0 ∧ nests n cs := by
  simp only [List.mem_cons, List.not_mem_nil, or_false] at hc
  rcases hc with rfl | rfl | rfl <;> simp [nests]

theorem nests_other (hc : c ∉ punctuation) : nests n (c :: cs) = nests n cs := by
  simp only [punctuation, List.mem_cons, List.not_mem_nil, or_false, not_or] at hc
  simp [nests, hc]

/-- A character is a parenthesis, a separator or sign, or none of them. -/
theorem punctuation_cases (c : Char) :
    c = '(' ∨ c = ')' ∨ c ∈ [',', '&', '|'] ∨ c ∉ punctuation := by
  by_cases hc : c ∈ punctuation
  · simp only [punctuation, List.mem_cons, List.not_mem_nil, or_false] at hc
    rcases hc with rfl | rfl | rfl | rfl | rfl <;> simp
  · exact .inr (.inr (.inr hc))

/-- Behind its first character a text is nested at some depth, and only this depth matters. -/
theorem exists_of_nests_cons (h : nests n (c :: cs)) :
    ∃ m, nests m cs ∧ ∀ ds, nests m ds → nests n (c :: ds) := by
  rcases punctuation_cases c with rfl | rfl | hc | hc
  · exact ⟨n + 1, by simpa using h, fun ds hds => by simpa using hds⟩
  · obtain ⟨k, rfl, hcs⟩ := nests_closing.mp h
    exact ⟨k, hcs, fun ds hds => nests_closing.mpr ⟨k, rfl, hds⟩⟩
  · obtain ⟨hn, hcs⟩ := (nests_separator hc).mp h
    exact ⟨n, hcs, fun ds hds => (nests_separator hc).mpr ⟨hn, hds⟩⟩
  · rw [nests_other hc] at h
    exact ⟨n, h, fun ds hds => by rwa [nests_other hc]⟩

/-- What follows a nested text is nested in what was open around it. -/
theorem nests_append_iff (h : nests m as) : nests (m + n) (as ++ bs) ↔ nests n bs := by
  induction as generalizing m with
  | nil =>
    obtain rfl : m = 0 := nests_nil.mp h
    simp
  | cons c as ih =>
    rw [List.cons_append]
    rcases punctuation_cases c with rfl | rfl | hc | hc
    · rw [nests_opening] at h ⊢
      rw [Nat.add_right_comm]
      exact ih h
    · obtain ⟨k, rfl, has⟩ := nests_closing.mp h
      rw [nests_closing, ← ih has]
      constructor
      · rintro ⟨j, hj, hnests⟩
        obtain rfl : j = k + n := by omega
        exact hnests
      · intro hnests
        exact ⟨k + n, by omega, hnests⟩
    · obtain ⟨hm, has⟩ := (nests_separator hc).mp h
      rw [nests_separator hc, ih has]
      exact and_iff_right (by omega)
    · rw [nests_other hc] at h ⊢
      exact ih h

/-- Nested text in front does not change the depth of what follows. -/
theorem nests_append_zero_iff (h : nests 0 as) : nests n (as ++ bs) ↔ nests n bs := by
  have happend : nests (0 + n) (as ++ bs) ↔ nests n bs := nests_append_iff h
  rwa [Nat.zero_add] at happend

/-- Text without punctuation is nested. -/
theorem nests_of_notMem (h : ∀ c ∈ cs, c ∉ punctuation) : nests 0 cs := by
  induction cs with
  | nil => rfl
  | cons c cs ih =>
    obtain ⟨hc, hcs⟩ := List.forall_mem_cons.mp h
    rw [nests_other hc]
    exact ih hcs

/-- What is open is closed. -/
theorem closing_mem_of_nests (h : nests (n + 1) cs) : ')' ∈ cs := by
  induction cs generalizing n with
  | nil => simp at h
  | cons c cs ih =>
    rcases punctuation_cases c with rfl | rfl | hc | hc
    · exact List.mem_cons_of_mem _ (ih (by simpa using h))
    · exact List.mem_cons_self
    · exact List.mem_cons_of_mem _ (ih ((nests_separator hc).mp h).2)
    · rw [nests_other hc] at h
      exact List.mem_cons_of_mem _ (ih h)

theorem notMem_punctuation_of_isWordChar (h : isWordChar c) : c ∉ punctuation := by
  intro hc
  simp [(Shorthand.punctuation_spec hc).1] at h

/-- A word does not change the depth of what follows. -/
theorem nests_word_iff {w : String} (hw : isWord w) : nests n (w.toList ++ cs) ↔ nests n cs := by
  have hchars := (isWord_iff.mp hw).2
  exact nests_append_zero_iff (nests_of_notMem fun c hc =>
    notMem_punctuation_of_isWordChar (hchars c hc))

/-- A flat list does not change what is open. -/
theorem nests_list_iff (h : ∀ c ∈ as, isListChar c) :
    nests (n + 1) (as ++ bs) ↔ nests (n + 1) bs := by
  induction as with
  | nil => rfl
  | cons c as ih =>
    obtain ⟨hc, has⟩ := List.forall_mem_cons.mp h
    rw [List.cons_append, ← ih has]
    rcases Bool.or_eq_true _ _ ▸ hc with hword | hcomma
    · rw [nests_other (notMem_punctuation_of_isWordChar hword)]
    · obtain rfl : c = ',' := by simpa using hcomma
      rw [nests_separator (by simp)]
      exact and_iff_right (Nat.succ_ne_zero n)

theorem nests_parenthesized (h : ∀ c ∈ cs, isListChar c) : nests 0 ('(' :: cs ++ [')']) := by
  rw [List.cons_append, nests_opening, nests_list_iff h]
  rfl

/-- Nested text does not close what is open before it. -/
theorem opensFirst_of_nests (h : nests 0 cs) : Shorthand.OpensFirst cs := by
  induction cs with
  | nil => exact Shorthand.opensFirst_of_isListChar (List.forall_mem_nil _)
  | cons c cs ih =>
    rcases punctuation_cases c with rfl | rfl | hc | hc
    · exact Shorthand.opensFirst_cons (by decide) (by decide) cs
    · simp at h
    · exact absurd rfl ((nests_separator hc).mp h).1
    · rw [nests_other hc] at h
      have hne : c ≠ ')' := by
        rintro rfl
        exact hc (by decide)
      exact (ih h).cons hne

end Text

namespace Rule

open Shorthand Text

/-- A rule that keeps to nested text: what it takes and what it writes is nested, it writes
something, and it stops in front of what ends an argument. -/
structure Local (r : Rule) : Prop where
  nested : ∀ {cs out rest}, r.front? cs = some (out, rest) →
    ∃ taken, taken ++ rest = cs ∧ nests 0 taken ∧ nests 0 out ∧ out ≠ []
  stops : ∀ {n sign cs}, nests n cs → sign ∈ closingSigns → ∀ rest,
    r.front? (cs ++ sign :: rest) = (r.front? cs).map fun m => (m.1, m.2 ++ sign :: rest)

variable {r : Rule} {n : Nat} {cs back : List Char}

namespace Local

/-- **A local rule keeps text nested.**  Where it replaces, what is left is nested at the same
depth. -/
theorem nests_apply (hr : r.Local) (h : nests n cs) : nests n (r.apply cs) := by
  fun_induction r.apply cs generalizing n with
  | case1 => exact h
  | case2 c cs out rest hsome ih =>
    obtain ⟨taken, htaken, hnests, hout, -⟩ := hr.nested hsome
    rw [← htaken, nests_append_zero_iff hnests] at h
    exact (nests_append_zero_iff hout).mpr (ih h)
  | case3 c cs hnone ih =>
    obtain ⟨m, hm, hcons⟩ := exists_of_nests_cons h
    exact hcons _ (ih hm)

theorem apply_ne_nil (hr : r.Local) (h : cs ≠ []) : r.apply cs ≠ [] := by
  obtain ⟨c, cs, rfl⟩ := List.exists_cons_of_ne_nil h
  cases hfront : r.front? (c :: cs) with
  | none =>
    rw [r.apply_of_none hfront]
    exact List.cons_ne_nil _ _
  | some m =>
    obtain ⟨-, -, -, -, hout⟩ := hr.nested hfront
    rw [r.apply_of_some hfront]
    exact List.append_ne_nil_of_left_ne_nil hout _

/-- What ends an argument is copied. -/
theorem front?_closing (hr : r.Local) {c : Char} (hc : c ∈ closingSigns) (rest : List Char) :
    r.front? (c :: rest) = none := by
  have hstops := hr.stops (nests_nil.mpr rfl) hc rest
  rwa [r.front?_nil] at hstops

/-- **Nested text is expanded by itself**, whatever follows it and ends an argument.  At each place
it finds with what follows just what it finds without. -/
theorem apply_append (hr : r.Local) (h : nests n cs) (hback : Closes back) :
    r.apply (cs ++ back) = r.apply cs ++ r.apply back := by
  cases back with
  | nil => simp
  | cons sign rest =>
    have hsign := closes_cons.mp hback
    fun_induction r.apply cs generalizing n with
    | case1 => rfl
    | case2 c cs out after hsome ih =>
      obtain ⟨taken, htaken, hnests, -, -⟩ := hr.nested hsome
      have hfront := hr.stops h hsign rest
      rw [hsome, Option.map_some] at hfront
      rw [← htaken, nests_append_zero_iff hnests] at h
      rw [r.apply_of_some hfront, ih h, List.append_assoc]
    | case3 c cs hnone ih =>
      have hfront := hr.stops h hsign rest
      rw [hnone, Option.map_none] at hfront
      obtain ⟨m, hm, -⟩ := exists_of_nests_cons h
      rw [List.cons_append] at hfront ⊢
      rw [r.apply_of_none hfront, ih hm, List.cons_append]

/-- What follows a nested text does not matter to a rule, if it closes an operand. -/
theorem applyIf_append (hr : r.Local) (on : Bool) (h : nests n cs) (hback : Closes back) :
    r.applyIf on (cs ++ back) = r.applyIf on cs ++ r.applyIf on back := by
  cases on with
  | false => rfl
  | true => exact hr.apply_append h hback

theorem nests_applyIf (hr : r.Local) (on : Bool) (h : nests n cs) : nests n (r.applyIf on cs) := by
  cases on with
  | false => exact h
  | true => exact hr.nests_apply h

theorem applyIf_ne_nil (hr : r.Local) (on : Bool) (h : cs ≠ []) : r.applyIf on cs ≠ [] := by
  cases on with
  | false => exact h
  | true => exact hr.apply_ne_nil h

/-- A sign that closes an operand stays where it is. -/
theorem applyIf_closing (hr : r.Local) (on : Bool) {c : Char} (hc : c ∈ closingSigns)
    (rest : List Char) : r.applyIf on (c :: rest) = c :: r.applyIf on rest := by
  cases on with
  | false => rfl
  | true => exact r.apply_of_none (hr.front?_closing hc rest)

/-- Nested texts with separators between them are expanded one by one. -/
theorem applyIf_intercalate (hr : r.Local) (on : Bool) {sign : Char} (hsign : sign ∈ closingSigns)
    {css : List (List Char)} (hcss : ∀ cs ∈ css, nests 0 cs) (hback : Closes back) :
    r.applyIf on ([sign].intercalate css ++ back) =
      [sign].intercalate (css.map (r.applyIf on)) ++ r.applyIf on back := by
  induction css with
  | nil => rfl
  | cons cs css ih =>
    obtain ⟨hcs, hrest⟩ := List.forall_mem_cons.mp hcss
    cases css with
    | nil => simpa using hr.applyIf_append on hcs hback
    | cons ds css =>
      have hcloses : Closes (sign :: ([sign].intercalate (ds :: css) ++ back)) :=
        closes_cons.mpr hsign
      rw [List.map_cons] at ih ⊢
      rw [List.map_cons, List.intercalate_cons_cons, List.intercalate_cons_cons]
      simp only [List.append_assoc, List.nil_append, List.cons_append]
      rw [hr.applyIf_append on hcs hcloses, hr.applyIf_closing on hsign, ih hrest]

end Local

end Rule

namespace Shorthand

open Text

/-! ## The rules -/

/-- Decoding signs is a local rule. -/
theorem local_encodedOperator : encodedOperator.Local where
  nested {cs out rest} h := by
    obtain ⟨sign, name, hcs, hsign, rfl, hname⟩ := exists_of_encodedOperator? h
    refine ⟨sign, hcs, nests_of_notMem hsign, nests_of_notMem ?_, List.cons_ne_nil _ _⟩
    intro c hc
    simp only [List.mem_cons, List.mem_append, List.not_mem_nil, or_false] at hc
    rcases hc with rfl | hc | rfl
    · decide
    · exact notMem_punctuation_of_isWordChar (by simp [isWordChar, hname c hc])
    · decide
  stops {_ _ cs} _ hsign rest :=
    stopsAt_encodedOperator? (closingSigns_subset hsign) cs rest trivial

/-- Expanding lists with slashes is a local rule. -/
theorem local_slashedList : slashedList.Local where
  nested {cs out rest} h := by
    obtain ⟨run, hcs, hrun, rfl⟩ := exists_of_slashedList? h
    refine ⟨run, hcs, nests_of_notMem fun c hc hmem => ?_, nests_parenthesized fun c hc => ?_,
      List.cons_ne_nil _ _⟩
    · have hslashed := hrun c hc
      rw [(punctuation_spec hmem).2.2.1] at hslashed
      cases hslashed
    · -- A slash has become a comma, and every other character is one of a word.
      obtain ⟨d, hd, rfl⟩ := List.mem_map.mp hc
      have hslashed := hrun d hd
      simp only [isSlashedChar, Bool.or_eq_true, beq_iff_eq] at hslashed
      split_ifs with hslash
      · decide
      · exact isListChar_of_isWordChar (hslashed.resolve_right hslash)
  stops {_ _ cs} _ hsign rest :=
    stopsAt_slashedList? (closingSigns_subset hsign) cs rest trivial

/-- An operand is nested. -/
theorem nests_operand (mayBeEmpty : Bool) (cs : List Char) : nests 0 (operand mayBeEmpty cs).1 := by
  rcases (operand_cases mayBeEmpty cs).2 with ⟨body, hbody, hlist⟩ | hword
  · rw [hbody]
    exact nests_parenthesized hlist
  · exact nests_of_notMem fun c hc => notMem_punctuation_of_isWordChar (hword c hc)

theorem nests_of_isOperatorChar {cs : List Char} (h : ∀ c ∈ cs, isOperatorChar c) : nests 0 cs :=
  nests_of_notMem fun c hc => (isOperatorChar_spec (h c hc)).2

/-- What is left behind an operand and an operator is nested at the same depth. -/
theorem nests_afterOperator {n : Nat} {cs op afterOp : List Char} (h : nests n cs)
    (hop : operator? (operand false cs).2 = some (op, afterOp)) : nests n afterOp := by
  obtain ⟨hchars, hread⟩ := readsOperator_of_operator? hop
  rw [← operand_append_eq false cs, nests_append_zero_iff (nests_operand false cs), ← hread,
    nests_append_zero_iff (nests_of_isOperatorChar hchars)] at h
  exact h

/-- Where something is closed, what follows does not matter. -/
theorem OpensFirst.append_of_mem {cs : List Char} (h : OpensFirst cs) (hclosing : ')' ∈ cs)
    (rest : List Char) : OpensFirst (cs ++ rest) := by
  have hne : cs.dropWhile isListChar ≠ [] := by
    intro hnil
    exact absurd (List.dropWhile_eq_nil_iff.mp hnil ')' hclosing) (by decide)
  unfold OpensFirst at h ⊢
  rw [List.dropWhile_append, if_neg (by simpa using hne), List.head?_append_of_ne_nil _ hne]
  exact h

section Closing

variable {n : Nat} {sign : Char} (hsign : sign ∈ closingSigns) {cs : List Char} (h : nests n cs)
  (mayBeEmpty : Bool) (rest : List Char)

include hsign h

/-- A list that is opened in nested text is closed there. -/
theorem flatList?_append_closing : flatList? mayBeEmpty (cs ++ sign :: rest) =
    (flatList? mayBeEmpty cs).map fun m => (m.1, m.2 ++ sign :: rest) := by
  cases cs with
  | nil =>
    have hcloses : Closes (sign :: rest) := closes_cons.mpr hsign
    exact flatList?_eq_none hcloses.ne_opening
  | cons c cs =>
    by_cases hc : c = '('
    · subst hc
      have hclosing : ')' ∈ cs := closing_mem_of_nests (by simpa using h)
      rw [List.cons_append]
      by_cases hopens : OpensFirst cs
      · have hlonger := hopens.append_of_mem hclosing (sign :: rest)
        rw [flatList?_of_opensFirst mayBeEmpty hopens, flatList?_of_opensFirst mayBeEmpty hlonger]
        rfl
      · obtain ⟨body, after, rfl, hbody⟩ := exists_of_not_opensFirst hopens
        rw [List.append_assoc, List.cons_append, flatList?_of_isListChar mayBeEmpty hbody,
          flatList?_of_isListChar mayBeEmpty hbody]
        split_ifs <;> rfl
    · rw [flatList?_eq_none (by simpa using hc), flatList?_eq_none (by simpa using hc)]
      rfl

/-- An operand in nested text is found without what follows the text. -/
theorem operand_append_closing : operand mayBeEmpty (cs ++ sign :: rest) =
    ((operand mayBeEmpty cs).1, (operand mayBeEmpty cs).2 ++ sign :: rest) := by
  have hword : isWordChar sign = false := (closingSigns_spec hsign).1
  unfold operand
  rw [flatList?_append_closing hsign h, takeWhile_append_sign hword, dropWhile_append_sign hword]
  cases flatList? mayBeEmpty cs <;> rfl

end Closing

/-- Turning comparisons into terms is a local rule. -/
theorem local_infixOperator : infixOperator.Local where
  nested {cs out rest} h := by
    change infixOperator? cs = some (out, rest) at h
    unfold infixOperator? at h
    dsimp only at h
    split at h
    · next op afterOp hop =>
      cases h
      obtain ⟨hchars, hread⟩ := readsOperator_of_operator? hop
      have hleft := nests_operand false cs
      have hright := nests_operand true afterOp
      refine ⟨(operand false cs).1 ++ (op ++ (operand true afterOp).1), ?_, ?_, ?_, by simp⟩
      · rw [List.append_assoc, List.append_assoc, operand_append_eq, hread, operand_append_eq]
      · rw [nests_append_zero_iff hleft, nests_append_zero_iff (nests_of_isOperatorChar hchars)]
        exact hright
      · -- The operands are nested, and the comma between them is in parentheses.
        have hname := nests_of_isOperatorChar (isOperatorChar_operatorName hchars)
        simp only [List.append_assoc, List.cons_append]
        rw [nests_append_zero_iff hname, nests_opening, nests_append_zero_iff hleft,
          nests_separator (by simp), nests_append_zero_iff hright]
        exact ⟨Nat.succ_ne_zero 0, rfl⟩
    · cases h
  stops {n sign cs} h hsign rest := by
    change infixOperator? (cs ++ sign :: rest) = (infixOperator? cs).map _
    unfold infixOperator?
    dsimp only
    rw [operand_append_closing hsign h,
      stopsAt_operator? (closingSigns_subset hsign) _ rest trivial]
    cases hop : operator? (operand false cs).2 with
    | none => rfl
    | some m =>
      have hafter := nests_afterOperator h hop
      simp [operand_append_closing hsign hafter]

/-- A list of nested texts opens a parenthesis before it closes one. -/
theorem opensFirst_intercalate {css : List (List Char)} (h : ∀ cs ∈ css, nests 0 cs) :
    OpensFirst ([','].intercalate css) := by
  induction css with
  | nil => exact opensFirst_of_isListChar (List.forall_mem_nil _)
  | cons cs css ih =>
    obtain ⟨hcs, hrest⟩ := List.forall_mem_cons.mp h
    cases css with
    | nil => simpa using opensFirst_of_nests hcs
    | cons ds css =>
      rw [List.intercalate_cons_cons, List.append_assoc]
      exact (opensFirst_of_nests hcs).append ((ih hrest).cons (by decide))

end Shorthand

/-! ## All rules -/

namespace Dialect

open Shorthand Text

variable {d : Dialect} {n : Nat} {cs back : List Char} {css : List (List Char)}

/-- The characters of a text with its shorthand expanded. -/
def expandChars (d : Dialect) (cs : List Char) : List Char :=
  infixOperator.applyIf d.infixOperators (d.prepare cs)

theorem toList_expand (d : Dialect) (text : String) :
    (d.expand text).toList = d.expandChars text.toList := by
  unfold expand expandChars prepare Rule.applyIf decodeOperators expandSlashes expandInfix
  split_ifs <;> simp

theorem nests_prepare (h : nests n cs) : nests n (d.prepare cs) :=
  local_slashedList.nests_applyIf _ (local_encodedOperator.nests_applyIf _ h)

/-- Nested text is expanded to nested text. -/
theorem nests_expandChars (h : nests n cs) : nests n (d.expandChars cs) :=
  local_infixOperator.nests_applyIf _ (nests_prepare h)

/-- The expansion of a text with characters in it has some. -/
theorem expandChars_ne_nil (h : cs ≠ []) : d.expandChars cs ≠ [] := by
  have hdecode := local_encodedOperator.applyIf_ne_nil d.encodedOperators h
  have hprepare := local_slashedList.applyIf_ne_nil d.slashedLists hdecode
  exact local_infixOperator.applyIf_ne_nil d.infixOperators hprepare

/-- Nested texts with signs between them are prepared one by one. -/
theorem prepare_intercalate {sign : Char} (hsign : sign ∈ closingSigns)
    (hcss : ∀ cs ∈ css, nests 0 cs) (hback : Closes back) :
    d.prepare ([sign].intercalate css ++ back) =
      [sign].intercalate (css.map d.prepare) ++ d.prepare back := by
  have hdecoded : ∀ cs ∈ css.map (encodedOperator.applyIf d.encodedOperators), nests 0 cs :=
    List.forall_mem_map.mpr fun cs hcs => local_encodedOperator.nests_applyIf _ (hcss cs hcs)
  unfold prepare
  rw [local_encodedOperator.applyIf_intercalate _ hsign hcss hback,
    local_slashedList.applyIf_intercalate _ hsign hdecoded (closes_decode _ hback), List.map_map]
  rfl

theorem nests_map_prepare (hcss : ∀ cs ∈ css, nests 0 cs) :
    ∀ cs ∈ css.map d.prepare, nests 0 cs :=
  List.forall_mem_map.mpr fun cs hcs => nests_prepare (hcss cs hcs)

/-- **Nested texts with separators between them are expanded one by one.** -/
theorem expandChars_intercalate {sign : Char} (hsign : sign ∈ closingSigns)
    (hcss : ∀ cs ∈ css, nests 0 cs) :
    d.expandChars ([sign].intercalate css) = [sign].intercalate (css.map d.expandChars) := by
  have hprepare := prepare_intercalate (d := d) hsign hcss closes_nil
  have hinfix := local_infixOperator.applyIf_intercalate d.infixOperators hsign
    (nests_map_prepare (d := d) hcss) closes_nil
  simp only [List.append_nil, prepare_nil, Rule.applyIf_nil, List.map_map] at hprepare hinfix
  rw [expandChars, hprepare, hinfix]
  rfl

/-- Nested texts are expanded one by one also as the arguments of a term. -/
theorem expandChars_application {name : List Char} (hname : ∀ c ∈ name, isNameChar c)
    (hcss : ∀ cs ∈ css, nests 0 cs) :
    d.expandChars (name ++ '(' :: ([','].intercalate css ++ [')'])) =
      name ++ '(' :: ([','].intercalate (css.map d.expandChars) ++ [')']) := by
  have hword : ∀ c ∈ name, isWordChar c := by
    intro c hc
    simp [isWordChar, hname c hc]
  have hcloses : Closes [')'] := closes_cons.mpr (by decide)
  have hprepare : d.prepare (name ++ '(' :: ([','].intercalate css ++ [')'])) =
      name ++ '(' :: ([','].intercalate (css.map d.prepare) ++ [')']) := by
    have hself : d.prepare name = name := by
      refine prepare_eq_self (not_hasEncodedSign_of_notMem fun hmem => ?_) fun hmem => ?_
      · exact absurd (hname '%' hmem) (by decide)
      · exact absurd (hname '/' hmem) (by decide)
    have hlast : d.prepare [')'] = [')'] := by
      have hsplit : d.prepare ([] ++ ')' :: []) = d.prepare [] ++ ')' :: d.prepare [] :=
        prepare_append_sign (by decide) [] []
      simpa [prepare_nil] using hsplit
    rw [prepare_append_sign (by decide), hself, prepare_intercalate (by decide) hcss hcloses, hlast]
  have hcopy : infixOperator.applyIf d.infixOperators
      (name ++ '(' :: ([','].intercalate (css.map d.prepare) ++ [')'])) =
        name ++ '(' :: infixOperator.applyIf d.infixOperators
          ([','].intercalate (css.map d.prepare) ++ [')']) := by
    have hopens := opensFirst_intercalate (nests_map_prepare (d := d) hcss)
    cases d.infixOperators with
    | false => rfl
    | true =>
      have hends : EndsWord ('(' :: ([','].intercalate (css.map d.prepare) ++ [')'])) :=
        endsWord_cons.mpr (by decide)
      have hop : operator? ('(' :: ([','].intercalate (css.map d.prepare) ++ [')'])) = none :=
        operator?_eq_none (by simp [operatorSigns])
      exact (apply_word hword hends hop).trans
        (congrArg (name ++ ·) (apply_opening hopens closes_nil))
  rw [expandChars, hprepare, hcopy, local_infixOperator.applyIf_intercalate _ (by decide)
    (nests_map_prepare hcss) hcloses, local_infixOperator.applyIf_closing _ (by decide),
    Rule.applyIf_nil, List.map_map]
  rfl

end Dialect

end ResourceQuery
