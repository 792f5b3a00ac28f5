import ResourceQuery.Proofs.Shorthand.EncodedSign

/-!
# No operator is left behind

Expanding infix operators goes through a text once, from left to right.  That no sign of an
operator escapes it is due to the empty operand: wherever a sign stands, there is an operator with
at least nothing on both sides.  The one way for a sign to get into the expansion is through a
name.  The name of a long operator is what stands between its first and its last character, and if
it starts with `!=`, `<=` or `>=`, that is a `=` too many.

## Main definitions

* `Shorthand.HasSignedName`: `!=`, `<=` or `>=` with a name and another `=` after it
* `Shorthand.SignFree`: no sign of an operator

## Main results

* `Shorthand.hasSignedName_of_infixOperator?`: one replacement, and what is left of the text
* `Shorthand.signFree_apply_iff`: when the expansion of a text has no sign in it
* `Shorthand.apply_eq_self_iff`: only texts without signs are their own expansion
* `Shorthand.expandInfix_signs`: expanding operators leaves none behind, but for such names
-/

namespace ResourceQuery

namespace Shorthand

open Text

/-- The signs that make a longer operator with a `=` after them. -/
def prefixedSigns : List Char := ['!', '<', '>']

/-- A name, which may be empty, and a `=` at the front of a text. -/
def NamesOperator (cs : List Char) : Prop :=
  ∃ name rest, (∀ c ∈ name, isNameChar c) ∧ cs = name ++ '=' :: rest

/-- The text has `!=`, `<=` or `>=` in it, followed by a name, which may be empty, and another
`=`. -/
def HasSignedName (cs : List Char) : Prop :=
  ∃ sign ∈ prefixedSigns, ∃ name, (∀ c ∈ name, isNameChar c) ∧
    sign :: '=' :: (name ++ ['=']) <:+: cs

/-- The text has no sign of an operator in it. -/
def SignFree (cs : List Char) : Prop := ∀ c ∈ cs, c ∉ comparisonSigns

instance : DecidablePred SignFree := fun cs => List.decidableBAll (fun c => c ∉ comparisonSigns) cs

/-! ## Texts with signs -/

theorem signFree_nil : SignFree [] := List.forall_mem_nil _

theorem signFree_append_iff {cs ds : List Char} :
    SignFree (cs ++ ds) ↔ SignFree cs ∧ SignFree ds :=
  List.forall_mem_append

theorem signFree_cons_iff {c : Char} {cs : List Char} :
    SignFree (c :: cs) ↔ c ∉ comparisonSigns ∧ SignFree cs :=
  List.forall_mem_cons

theorem notMem_operatorSigns_of_isNameChar {c : Char} (h : isNameChar c) : c ∉ operatorSigns :=
  notMem_operatorSigns_of_isListChar (isListChar_of_isWordChar (by simp [isWordChar, h]))

theorem prefixedSigns_subset : prefixedSigns ⊆ operatorSigns := by
  simp [prefixedSigns, operatorSigns]

theorem signFree_of_isNameChar {cs : List Char} (h : ∀ c ∈ cs, isNameChar c) : SignFree cs :=
  fun c hc hmem => notMem_operatorSigns_of_isNameChar (h c hc) (comparisonSigns_subset hmem)

theorem not_hasSignedName_nil : ¬ HasSignedName [] := by
  rintro ⟨sign, -, name, -, hinfix⟩
  simp at hinfix

/-- A signed name starts at the front of a text, or it is in the rest. -/
theorem hasSignedName_cons_iff {c : Char} {cs : List Char} :
    HasSignedName (c :: cs) ↔
      (c ∈ prefixedSigns ∧ ∃ ds, cs = '=' :: ds ∧ NamesOperator ds) ∨ HasSignedName cs := by
  constructor
  · rintro ⟨sign, hsign, name, hname, hinfix⟩
    rcases List.infix_cons_iff.mp hinfix with ⟨rest, heq⟩ | hinfix
    · obtain ⟨rfl, rfl⟩ := List.cons.inj heq
      exact .inl ⟨hsign, _, rfl, name, rest, hname, by simp⟩
    · exact .inr ⟨sign, hsign, name, hname, hinfix⟩
  · rintro (⟨hc, ds, rfl, name, rest, hname, rfl⟩ | ⟨sign, hsign, name, hname, hinfix⟩)
    · exact ⟨c, hc, name, hname, [], rest, by simp⟩
    · exact ⟨sign, hsign, name, hname, hinfix.trans (List.suffix_cons c cs).isInfix⟩

/-- What holds none of the signs can be left out at the front. -/
theorem hasSignedName_append_iff {front back : List Char} (h : ∀ c ∈ front, c ∉ prefixedSigns) :
    HasSignedName (front ++ back) ↔ HasSignedName back := by
  induction front with
  | nil => rfl
  | cons c front ih =>
    obtain ⟨hc, hfront⟩ := List.forall_mem_cons.mp h
    rw [List.cons_append, hasSignedName_cons_iff, ih hfront]
    simp [hc]

/-! ## Reading an operator -/

/-- Behind a sign there is the name of an operator, or there is none. -/
theorem namedOperator_cases (op cs : List Char) :
    (∃ name rest, (∀ c ∈ name, isNameChar c) ∧ cs = name ++ '=' :: rest ∧
      namedOperator op cs = (op ++ name ++ ['='], rest)) ∨
    ¬ NamesOperator cs ∧ namedOperator op cs = (op, cs) := by
  by_cases h : NamesOperator cs
  · obtain ⟨name, rest, hname, rfl⟩ := h
    exact .inl ⟨name, rest, hname, rfl, namedOperator_name op hname rest⟩
  · refine .inr ⟨h, ?_⟩
    unfold namedOperator
    split
    · next rest hrest =>
      refine absurd ⟨cs.takeWhile isNameChar, rest, fun c => List.mem_takeWhile_imp, ?_⟩ h
      rw [← hrest, List.takeWhile_append_dropWhile]
    · rfl

theorem operatorName_of_long (first last : Char) {name : List Char} (h : name ≠ []) :
    operatorName (first :: (name ++ [last])) = name := by
  have hlen : ¬ (first :: (name ++ [last])).length < 3 := by
    have := List.length_pos_iff.mpr h
    simp
    omega
  rw [operatorName, if_neg hlen, List.tail_cons, List.dropLast_concat]

variable {cs op rest : List Char}

/-- After a sign and a `=` the name of the operator is free of signs, unless a name follows. -/
theorem hasSignedName_signed {sign : Char} (hsign : sign ∈ prefixedSigns)
    (h : namedOperator [sign, '='] cs = (op, rest)) :
    HasSignedName (sign :: '=' :: cs) ↔ ¬ SignFree (operatorName op) ∨ HasSignedName rest := by
  have hequals : '=' ∉ prefixedSigns := by decide
  rcases namedOperator_cases [sign, '='] cs with ⟨name, after, hname, rfl, heq⟩ | ⟨hnot, heq⟩
  · -- The name that is written starts with the `=` after the sign.
    obtain ⟨rfl, rfl⟩ := Prod.mk.inj (heq.symm.trans h)
    have hop : operatorName ([sign, '='] ++ name ++ ['=']) = '=' :: name :=
      operatorName_of_long sign '=' (List.cons_ne_nil '=' name)
    have hfree : ¬ SignFree ('=' :: name) := fun hfree =>
      absurd (hfree '=' List.mem_cons_self) (by decide)
    simp only [hop, hfree, not_false_eq_true, true_or, iff_true]
    exact hasSignedName_cons_iff.mpr (.inl ⟨hsign, _, rfl, name, after, hname, rfl⟩)
  · obtain ⟨rfl, rfl⟩ := Prod.mk.inj (heq.symm.trans h)
    have hfree : SignFree (operatorName [sign, '=']) := by
      simp only [prefixedSigns, List.mem_cons, List.not_mem_nil, or_false] at hsign
      rcases hsign with rfl | rfl | rfl <;> decide
    simp [hasSignedName_cons_iff, hnot, hfree, hequals]

/-- After a `=` alone the name of the operator is free of signs. -/
theorem hasSignedName_equals (h : namedOperator ['='] cs = (op, rest)) :
    HasSignedName ('=' :: cs) ↔ ¬ SignFree (operatorName op) ∨ HasSignedName rest := by
  have hequals : '=' ∉ prefixedSigns := by decide
  rcases namedOperator_cases ['='] cs with ⟨name, after, hname, rfl, heq⟩ | ⟨-, heq⟩
  · obtain ⟨rfl, rfl⟩ := Prod.mk.inj (heq.symm.trans h)
    have hfree : SignFree (operatorName ('=' :: (name ++ ['=']))) := by
      by_cases hempty : name = []
      · subst hempty
        decide
      · exact (operatorName_of_long '=' '=' hempty).symm ▸ signFree_of_isNameChar hname
    have hskip : ∀ c ∈ name, c ∉ prefixedSigns := fun c hc hmem =>
      notMem_operatorSigns_of_isNameChar (hname c hc) (prefixedSigns_subset hmem)
    rw [hasSignedName_cons_iff, hasSignedName_append_iff hskip, hasSignedName_cons_iff]
    simp [hequals, hfree]
  · obtain ⟨rfl, rfl⟩ := Prod.mk.inj (heq.symm.trans h)
    have hfree : SignFree (operatorName ['=']) := by decide
    simp [hasSignedName_cons_iff, hequals, hfree]

/-- A sign alone is an operator with a name that is free of signs. -/
theorem hasSignedName_alone {sign : Char} (hsign : sign ∈ ['<', '>'])
    (hcs : ∀ ds, cs ≠ '=' :: ds) :
    HasSignedName (sign :: cs) ↔ ¬ SignFree (operatorName [sign]) ∨ HasSignedName cs := by
  have hfree : SignFree (operatorName [sign]) := by
    rcases List.mem_pair.mp hsign with rfl | rfl <;> decide
  simp [hasSignedName_cons_iff, hcs, hfree]

/-- An operator is a signed name if its own name is not free of signs. -/
theorem hasSignedName_of_operator? (h : operator? cs = some (op, rest)) :
    HasSignedName cs ↔ ¬ SignFree (operatorName op) ∨ HasSignedName rest := by
  unfold operator? at h
  split at h
  · exact hasSignedName_signed (by decide) (Option.some.inj h)
  · exact hasSignedName_signed (by decide) (Option.some.inj h)
  · exact hasSignedName_signed (by decide) (Option.some.inj h)
  · exact hasSignedName_equals (Option.some.inj h)
  · next hcs =>
    cases h
    exact hasSignedName_alone (by simp) hcs
  · next hcs =>
    cases h
    exact hasSignedName_alone (by simp) hcs
  · cases h

/-- Where no operator is read, there is no sign, and no `!` in front of a `=`. -/
theorem notMem_of_operator?_eq_none {c : Char} (h : operator? (c :: cs) = none) :
    c ∉ comparisonSigns ∧ (c ∈ prefixedSigns → ∀ ds, cs ≠ '=' :: ds) := by
  unfold operator? at h
  split at h
  case h_7 _ _ hnot hequals hless hgreater =>
    have hless : c ≠ '<' := fun hc => hless cs (by rw [hc])
    have hgreater : c ≠ '>' := fun hc => hgreater cs (by rw [hc])
    have hequals : c ≠ '=' := fun hc => hequals cs (by rw [hc])
    refine ⟨by simp [comparisonSigns, hless, hgreater, hequals], fun hc ds hds => ?_⟩
    have hc : c = '!' := by simpa [prefixedSigns, hless, hgreater] using hc
    exact hnot ds (by rw [hc, hds])
  all_goals cases h

/-! ## One replacement -/

theorem notMem_operatorSigns_operand (mayBeEmpty : Bool) (cs : List Char) :
    ∀ c ∈ (operand mayBeEmpty cs).1, c ∉ operatorSigns := by
  intro c hc
  rcases (operand_cases mayBeEmpty cs).2 with ⟨body, hbody, hlist⟩ | hword
  · rw [hbody, List.cons_append, List.mem_cons, List.mem_append, List.mem_singleton] at hc
    rcases hc with rfl | hc | rfl
    · decide
    · exact notMem_operatorSigns_of_isListChar (hlist c hc)
    · decide
  · exact notMem_operatorSigns_of_isListChar (isListChar_of_isWordChar (hword c hc))

theorem signFree_of_operand (mayBeEmpty : Bool) (cs : List Char) :
    SignFree (operand mayBeEmpty cs).1 := fun c hc hmem =>
  notMem_operatorSigns_operand mayBeEmpty cs c hc (comparisonSigns_subset hmem)

/-- There is no signed name in an operand. -/
theorem hasSignedName_operand (mayBeEmpty : Bool) (cs : List Char) :
    HasSignedName cs ↔ HasSignedName (operand mayBeEmpty cs).2 := by
  conv_lhs => rw [← operand_append_eq mayBeEmpty cs]
  exact hasSignedName_append_iff fun c hc hmem =>
    notMem_operatorSigns_operand mayBeEmpty cs c hc (prefixedSigns_subset hmem)

/-- **One replacement**: a signed name was in what was replaced, and put a sign into what is
written for it, or is in the rest of the text. -/
theorem hasSignedName_of_infixOperator? {out : List Char}
    (h : infixOperator? cs = some (out, rest)) :
    HasSignedName cs ↔ ¬ SignFree out ∨ HasSignedName rest := by
  unfold infixOperator? at h
  dsimp only at h
  split at h
  · next op afterOp hop =>
    cases h
    have hout : SignFree (operatorName op ++ '(' :: (operand false cs).1 ++
        ',' :: (operand true afterOp).1 ++ [')']) ↔ SignFree (operatorName op) := by
      simp [signFree_append_iff, signFree_cons_iff, signFree_nil, signFree_of_operand,
        comparisonSigns]
    rw [hasSignedName_operand false cs, hasSignedName_of_operator? hop,
      hasSignedName_operand true afterOp, hout]
  · cases h

/-- Where nothing is replaced, there is no sign to copy. -/
theorem notMem_of_infixOperator?_eq_none {c : Char} (h : infixOperator? (c :: cs) = none) :
    c ∉ comparisonSigns ∧ (HasSignedName (c :: cs) ↔ HasSignedName cs) := by
  by_cases hc : c ∈ operatorSigns
  · -- Between nothing and what follows, the sign would be an operator.
    have hlist := isListChar_of_mem_operatorSigns hc
    have hends : EndsWord (c :: cs) := endsWord_cons.mpr (Bool.eq_false_iff.mpr fun hword => by
      simp [isListChar, hword] at hlist)
    have hopening : c ≠ '(' := by
      rintro rfl
      exact absurd hc (by decide)
    have hop : operator? (c :: cs) = none := by
      have hoperand : operand false (c :: cs) = ([], c :: cs) := by
        rw [operand_eq_word (by simpa using hopening), hends.takeWhile, hends.dropWhile]
      cases hread : operator? (c :: cs) with
      | none => rfl
      | some m => simp [infixOperator?, hoperand, hread] at h
    obtain ⟨hfree, hsigned⟩ := notMem_of_operator?_eq_none hop
    refine ⟨hfree, ?_⟩
    rw [hasSignedName_cons_iff, or_iff_right]
    rintro ⟨hsign, ds, hds, -⟩
    exact hsigned hsign ds hds
  · refine ⟨fun hmem => hc (comparisonSigns_subset hmem), ?_⟩
    rw [hasSignedName_cons_iff, or_iff_right]
    exact fun hsign => hc (prefixedSigns_subset hsign.1)

/-! ## Whole texts -/

/-- **The expansion of a text** has no sign in it if the text has no signed name. -/
theorem signFree_apply_iff (cs : List Char) :
    SignFree (infixOperator.apply cs) ↔ ¬ HasSignedName cs := by
  fun_induction infixOperator.apply cs with
  | case1 => simp [not_hasSignedName_nil, signFree_nil]
  | case2 c cs out rest hsome ih =>
    rw [signFree_append_iff, ih, hasSignedName_of_infixOperator? hsome, not_or, not_not]
  | case3 c cs hnone ih =>
    obtain ⟨hc, hsigned⟩ := notMem_of_infixOperator?_eq_none hnone
    rw [signFree_cons_iff, ih, hsigned, and_iff_right hc]

/-- The name that an operator stands for is at most two characters shorter. -/
theorem length_le_operatorName (op : List Char) : op.length ≤ (operatorName op).length + 2 := by
  unfold operatorName
  split_ifs
  · omega
  · rw [List.length_dropLast, List.length_tail]
    omega

/-- Every replacement makes a text longer. -/
theorem length_lt_of_infixOperator? {out : List Char} (h : infixOperator? cs = some (out, rest)) :
    cs.length < out.length + rest.length := by
  unfold infixOperator? at h
  dsimp only at h
  split at h
  · next op afterOp hop =>
    cases h
    have hname := length_le_operatorName op
    have hleft := congrArg List.length (operand_append_eq false cs)
    have hright := congrArg List.length (operand_append_eq true afterOp)
    have hread := congrArg List.length (readsOperator_of_operator? hop).2
    simp only [List.length_append, List.length_cons, List.length_nil] at *
    omega
  · cases h

/-- **Only texts without signs are their own expansion.**  The text never gets shorter, and it gets
longer where there is a sign. -/
theorem apply_eq_self_iff {cs : List Char} : infixOperator.apply cs = cs ↔ SignFree cs := by
  refine ⟨fun h => ?_, apply_eq_self⟩
  have hlen : cs.length ≤ (infixOperator.apply cs).length ∧
      ((infixOperator.apply cs).length = cs.length → SignFree cs) := by
    clear h
    fun_induction infixOperator.apply cs with
    | case1 => exact ⟨le_rfl, fun _ => signFree_nil⟩
    | case2 c cs out rest hsome ih =>
      have := length_lt_of_infixOperator? hsome
      rw [List.length_append]
      omega
    | case3 c cs hnone ih =>
      obtain ⟨hc, -⟩ := notMem_of_infixOperator?_eq_none hnone
      simp only [List.length_cons, Nat.add_right_cancel_iff, Nat.add_le_add_iff_right]
      exact ⟨ih.1, fun heq => signFree_cons_iff.mpr ⟨hc, ih.2 heq⟩⟩
  exact hlen.2 (congrArg List.length h)

/-- **Expanding operators leaves none behind.**  If the text has no `!=`, `<=` or `>=` with a name
and another `=` after it, then its expansion has none of the signs `<`, `>` and `=`, and expanding
again changes nothing; otherwise neither is so. -/
theorem expandInfix_signs (text : String) :
    ((∀ c ∈ (expandInfix text).toList, c ∉ ['<', '>', '=']) ↔ ¬ HasSignedName text.toList) ∧
    (expandInfix (expandInfix text) = expandInfix text ↔ ¬ HasSignedName text.toList) := by
  have hsigns := signFree_apply_iff text.toList
  constructor
  · rw [expandInfix, String.toList_ofList]
    exact hsigns
  · rw [← hsigns, ← apply_eq_self_iff, ← String.toList_inj]
    simp [expandInfix]

example : expandInfix "a=b=c=<=(d,e)!=b=c" = "b(a,c)eq(,)le(,(d,e))=b(,c)" := by
  with_unfolding_all rfl

end Shorthand

end ResourceQuery
