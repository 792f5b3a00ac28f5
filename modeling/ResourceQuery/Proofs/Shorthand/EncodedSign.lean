import ResourceQuery.Proofs.Shorthand.Context

/-!
# Where encoded signs are left

The dialect of full queries decodes `%3C` and `%3E` before anything else is read, so no word of a
query should have them.  There is one way around: a flat list is an operand also if a word stands
in front of it, and the name of the operator is then written behind that word.  So `%3(a)=C=b`
becomes `%3C((a),b)`.  The word that is put together in this way names a term, and no word that
stands for a value has an encoded sign in it.

## Main definitions

* `Shorthand.SignsInNames`: an encoded sign is a part of a word that something opens after

## Main results

* `Shorthand.hasEncodedSign_append_sign_iff`: encoded signs do not go past other characters
* `Shorthand.not_hasEncodedSign_decode`: decoding leaves none
* `Shorthand.signsInNames_apply`: expanding infix operators makes them in names only
* `Dialect.prepare_eq_self`: text without encoded signs and slashes is not touched before
-/

namespace ResourceQuery

section Infix

variable {α : Type} {pattern : List α} {sign : α} (h : sign ∉ pattern) {as bs : List α}

include h

/-- What is found around a character that it does not have is found before it, or behind it with
the same text after it. -/
theorem infix_or_of_append_eq {front back : List α}
    (heq : as ++ sign :: bs = front ++ (pattern ++ back)) :
    pattern <:+: as ∨ ∃ front', bs = front' ++ (pattern ++ back) := by
  rcases List.append_eq_append_iff.mp heq with ⟨cs, rfl, hcs⟩ | ⟨cs, rfl, hcs⟩
  · cases cs with
    | nil =>
      cases pattern with
      | nil => exact .inl List.nil_infix
      | cons c pattern => exact absurd (List.cons.inj hcs).1 fun hc => h (by simp [hc])
    | cons c cs => exact .inr ⟨cs, (List.cons.inj hcs).2⟩
  · -- It starts before the character, so it ends there.
    rcases List.append_eq_append_iff.mp hcs with ⟨ds, rfl, -⟩ | ⟨ds, rfl, hds⟩
    · exact .inl ⟨front, ds, by simp⟩
    · cases ds with
      | nil => exact .inl ⟨front, [], by simp⟩
      | cons d ds => exact absurd (List.cons.inj hds).1 fun hd => h (by simp [hd])

/-- A pattern without a sign is in a text if it is on one of the two sides of the sign. -/
theorem infix_append_cons_iff :
    pattern <:+: as ++ sign :: bs ↔ pattern <:+: as ∨ pattern <:+: bs := by
  constructor
  · rintro ⟨front, back, heq⟩
    rw [List.append_assoc] at heq
    refine (infix_or_of_append_eq h heq.symm).imp_right ?_
    rintro ⟨front', rfl⟩
    exact ⟨front', back, by simp⟩
  · rintro (has | hbs)
    · exact has.trans (List.prefix_append as _).isInfix
    · exact hbs.trans ((List.suffix_cons sign bs).trans (List.suffix_append as _)).isInfix

end Infix

namespace Shorthand

open Text

/-- The characters of encoded signs. -/
def encodedChars : List Char := ['%', '3', 'C', 'c', 'E', 'e']

section HasEncodedSign

variable {cs ds : List Char}

/-- A text that is a part of another one has no sign that the other has not. -/
theorem HasEncodedSign.of_isInfix (h : HasEncodedSign cs) (hds : cs <:+: ds) :
    HasEncodedSign ds := by
  obtain ⟨c, hc, hwithin⟩ := h
  exact ⟨c, hc, hwithin.trans hds⟩

/-- **Encoded signs do not go past other characters.** -/
theorem hasEncodedSign_append_sign_iff {sign : Char} (hsign : sign ∉ encodedChars) :
    HasEncodedSign (cs ++ sign :: ds) ↔ HasEncodedSign cs ∨ HasEncodedSign ds := by
  have hpattern : ∀ c ∈ ['C', 'c', 'E', 'e'], sign ∉ ['%', '3', c] := by
    intro c hc hmem
    refine hsign ?_
    simp only [List.mem_cons, List.not_mem_nil, or_false, encodedChars] at hc hmem ⊢
    rcases hmem with rfl | rfl | rfl
    · exact .inl rfl
    · exact .inr (.inl rfl)
    · exact .inr (.inr hc)
  constructor
  · rintro ⟨c, hc, hwithin⟩
    exact ((infix_append_cons_iff (hpattern c hc)).mp hwithin).imp (⟨c, hc, ·⟩) (⟨c, hc, ·⟩)
  · rintro (⟨c, hc, hwithin⟩ | ⟨c, hc, hwithin⟩)
    · exact ⟨c, hc, (infix_append_cons_iff (hpattern c hc)).mpr (.inl hwithin)⟩
    · exact ⟨c, hc, (infix_append_cons_iff (hpattern c hc)).mpr (.inr hwithin)⟩

/-- There is no encoded sign without a percent sign. -/
theorem not_hasEncodedSign_of_notMem (h : '%' ∉ cs) : ¬ HasEncodedSign cs := by
  rintro ⟨c, -, hwithin⟩
  exact h (hwithin.subset List.mem_cons_self)

@[simp] theorem not_hasEncodedSign_nil : ¬ HasEncodedSign [] :=
  not_hasEncodedSign_of_notMem List.not_mem_nil

theorem hasEncodedSign_cons_iff {sign : Char} (hsign : sign ∉ encodedChars) :
    HasEncodedSign (sign :: ds) ↔ HasEncodedSign ds := by
  rw [← List.nil_append (sign :: ds), hasEncodedSign_append_sign_iff hsign]
  simp

theorem hasEncodedSign_concat_iff {sign : Char} (hsign : sign ∉ encodedChars) :
    HasEncodedSign (cs ++ [sign]) ↔ HasEncodedSign cs := by
  rw [hasEncodedSign_append_sign_iff hsign]
  simp

/-- An encoded sign at the front of a text, or further back. -/
theorem hasEncodedSign_cons_cases {c : Char} (h : HasEncodedSign (c :: cs)) :
    (∃ d ∈ ['C', 'c', 'E', 'e'], ∃ rest, c = '%' ∧ cs = '3' :: d :: rest) ∨ HasEncodedSign cs := by
  obtain ⟨d, hd, hwithin⟩ := h
  rcases List.infix_cons_iff.mp hwithin with ⟨rest, hfront⟩ | hwithin
  · obtain ⟨rfl, hcs⟩ := List.cons.inj hfront
    exact .inl ⟨d, hd, rest, rfl, hcs.symm⟩
  · exact .inr ⟨d, hd, hwithin⟩

end HasEncodedSign

/-! ## Rules before infix operators -/

/-- A character that no replacement starts with was copied. -/
theorem exists_of_apply_eq_cons {r : Rule} {x : Char} {cs ys : List Char}
    (hr : ∀ {cs out rest}, r.front? cs = some (out, rest) → ∃ y out', out = y :: out' ∧ y ≠ x)
    (h : r.apply cs = x :: ys) : ∃ cs', cs = x :: cs' ∧ r.apply cs' = ys := by
  cases cs with
  | nil => simp at h
  | cons c cs =>
    cases hfront : r.front? (c :: cs) with
    | none =>
      rw [r.apply_of_none hfront] at h
      obtain ⟨rfl, htail⟩ := List.cons.inj h
      exact ⟨cs, rfl, htail⟩
    | some m =>
      obtain ⟨out, rest⟩ := m
      obtain ⟨y, out', rfl, hne⟩ := hr hfront
      rw [r.apply_of_some hfront] at h
      exact absurd (List.cons.inj h).1 hne

/-- What a rule makes of a text has an encoded sign in front only if the text has one, if the rule
does not write its characters first. -/
theorem exists_of_apply_eq_encoded {r : Rule} {cs rest : List Char} {d : Char}
    (hd : d ∈ ['C', 'c', 'E', 'e'])
    (hr : ∀ {cs out rest}, r.front? cs = some (out, rest) →
      ∃ y out', out = y :: out' ∧ y ∉ encodedChars)
    (h : r.apply cs = '3' :: d :: rest) : ∃ cs', cs = '3' :: d :: cs' := by
  have hcopied : ∀ {x}, x ∈ encodedChars → ∀ {cs out rest}, r.front? cs = some (out, rest) →
      ∃ y out', out = y :: out' ∧ y ≠ x := by
    intro x hx cs out rest hfront
    obtain ⟨y, out', hout, hy⟩ := hr hfront
    exact ⟨y, out', hout, fun hyx => hy (hyx ▸ hx)⟩
  have hdchars : d ∈ encodedChars := List.mem_cons_of_mem _ (List.mem_cons_of_mem _ hd)
  obtain ⟨cs, rfl, htail⟩ := exists_of_apply_eq_cons (hcopied (by decide)) h
  obtain ⟨cs, rfl, -⟩ := exists_of_apply_eq_cons (hcopied hdchars) htail
  exact ⟨cs, rfl⟩

/-- What is decoded is a name between two `=`; a `=` behind the encoded sign is a part of it. -/
theorem exists_of_encodedOperator? {cs out rest : List Char}
    (h : encodedOperator? cs = some (out, rest)) :
    ∃ sign name, sign ++ rest = cs ∧ (∀ c ∈ sign, c ∉ Token.punctuation) ∧
      out = '=' :: (name ++ ['=']) ∧ ∀ c ∈ name, isNameChar c := by
  have hsign : ∀ c ∈ ['C', 'c', 'E', 'e'], ∀ d ∈ ['%', '3', c, '='], d ∉ Token.punctuation := by
    intro c hc
    simp only [List.mem_cons, List.not_mem_nil, or_false] at hc
    rcases hc with rfl | rfl | rfl | rfl <;> simp [Token.punctuation]
  unfold encodedOperator? at h
  split at h
  · next c after =>
    unfold signOperator at h
    split_ifs at h with hless hgreater
    · replace hsign := hsign c (by rcases hless with rfl | rfl <;> decide)
      split at h
      · cases h
        exact ⟨['%', '3', c, '='], ['l', 'e'], rfl, hsign, rfl, List.all_eq_true.mp (by decide)⟩
      · cases h
        exact ⟨['%', '3', c], ['l', 't'], rfl,
          fun d hd => hsign d (List.mem_append_left ['='] hd), rfl, List.all_eq_true.mp (by decide)⟩
    · replace hsign := hsign c (by rcases hgreater with rfl | rfl <;> decide)
      split at h
      · cases h
        exact ⟨['%', '3', c, '='], ['g', 'e'], rfl, hsign, rfl, List.all_eq_true.mp (by decide)⟩
      · cases h
        exact ⟨['%', '3', c], ['g', 't'], rfl,
          fun d hd => hsign d (List.mem_append_left ['='] hd), rfl, List.all_eq_true.mp (by decide)⟩
  · cases h

/-- **Decoding leaves no encoded sign.** -/
theorem not_hasEncodedSign_decode (cs : List Char) :
    ¬ HasEncodedSign (encodedOperator.apply cs) := by
  fun_induction encodedOperator.apply cs with
  | case1 => exact not_hasEncodedSign_nil
  | case2 c cs out rest hsome ih =>
    obtain ⟨sign, name, -, -, rfl, hname⟩ := exists_of_encodedOperator? hsome
    have hnotMem : '%' ∉ name := fun hmem => absurd (hname '%' hmem) (by decide)
    rw [List.cons_append, List.append_assoc, hasEncodedSign_cons_iff (by decide),
      List.singleton_append, hasEncodedSign_append_sign_iff (by decide), not_or]
    exact ⟨not_hasEncodedSign_of_notMem hnotMem, ih⟩
  | case3 c cs hnone ih =>
    intro h
    rcases hasEncodedSign_cons_cases h with ⟨d, hd, rest, rfl, happly⟩ | h
    · -- Its characters were copied, so the rule would have found it.
      obtain ⟨cs, rfl⟩ := exists_of_apply_eq_encoded hd (fun hsome => by
        obtain ⟨sign, name, -, -, rfl, -⟩ := exists_of_encodedOperator? hsome
        exact ⟨_, _, rfl, by decide⟩) happly
      simp only [List.mem_cons, List.not_mem_nil, or_false] at hd
      rcases hd with rfl | rfl | rfl | rfl <;> simp [encodedOperator, encodedOperator?] at hnone
    · exact ih h

/-- What is expanded is a run of slashed characters. -/
theorem exists_of_slashedList? {cs out rest : List Char} (h : slashedList? cs = some (out, rest)) :
    ∃ run, run ++ rest = cs ∧ (∀ c ∈ run, isSlashedChar c) ∧ out = listOfSlashed run := by
  unfold slashedList? at h
  split at h
  · next after hafter =>
    cases h
    have hword : ∀ c ∈ cs.takeWhile isWordChar, isSlashedChar c := by
      intro c hc
      simp [isSlashedChar, List.mem_takeWhile_imp hc]
    refine ⟨_, ?_, List.forall_mem_append.mpr ⟨hword, List.forall_mem_cons.mpr
      ⟨by decide, fun c hc => List.mem_takeWhile_imp hc⟩⟩, rfl⟩
    rw [List.append_assoc, List.cons_append, List.takeWhile_append_dropWhile, ← hafter,
      List.takeWhile_append_dropWhile]
  · cases h

/-- A list with slashes has no encoded sign that its run has not: slashes become commas, and neither
is a character of such a sign. -/
theorem not_hasEncodedSign_listOfSlashed {run : List Char} (h : ¬ HasEncodedSign run) :
    ¬ HasEncodedSign (listOfSlashed run) := by
  rw [listOfSlashed, List.cons_append, hasEncodedSign_cons_iff (by decide),
    hasEncodedSign_concat_iff (by decide)]
  induction run with
  | nil => exact h
  | cons c run ih =>
    have htail : ¬ HasEncodedSign run := fun hrun =>
      h (hrun.of_isInfix (List.suffix_cons c run).isInfix)
    intro hmap
    rcases hasEncodedSign_cons_cases hmap with ⟨d, hd, rest, hc, hrun⟩ | hmap
    · have hcopied : ∀ {x y : Char}, (if x = '/' then ',' else x) = y → y ≠ ',' → x = y := by
        intro x y hxy hy
        split_ifs at hxy
        · exact absurd hxy.symm hy
        · exact hxy
      have hcomma : d ≠ ',' := by
        rintro rfl
        exact absurd hd (by decide)
      obtain ⟨x, xs, rfl, hx, hxs⟩ := List.map_eq_cons_iff.mp hrun
      obtain ⟨y, ys, rfl, hy, -⟩ := List.map_eq_cons_iff.mp hxs
      rw [hcopied hc (by decide), hcopied hx (by decide), hcopied hy hcomma] at h
      exact h ⟨d, hd, [], ys, rfl⟩
    · exact ih htail hmap

/-- Expanding slashed lists makes no encoded sign. -/
theorem not_hasEncodedSign_expandSlashes {cs : List Char} (h : ¬ HasEncodedSign cs) :
    ¬ HasEncodedSign (slashedList.apply cs) := by
  fun_induction slashedList.apply cs with
  | case1 => exact h
  | case2 c cs out rest hsome ih =>
    obtain ⟨run, hrun, -, rfl⟩ := exists_of_slashedList? hsome
    have hparts : ¬ HasEncodedSign run ∧ ¬ HasEncodedSign rest := by
      rw [← hrun] at h
      exact ⟨fun hr => h (hr.of_isInfix (List.prefix_append run rest).isInfix),
        fun hr => h (hr.of_isInfix (List.suffix_append run rest).isInfix)⟩
    have hlist := not_hasEncodedSign_listOfSlashed hparts.1
    rw [listOfSlashed, hasEncodedSign_concat_iff (by decide)] at hlist
    rw [listOfSlashed, List.append_assoc, List.singleton_append,
      hasEncodedSign_append_sign_iff (by decide), not_or]
    exact ⟨hlist, ih hparts.2⟩
  | case3 c cs hnone ih =>
    have htail : ¬ HasEncodedSign cs := fun hcs =>
      h (hcs.of_isInfix (List.suffix_cons c cs).isInfix)
    intro hcons
    rcases hasEncodedSign_cons_cases hcons with ⟨d, hd, rest, rfl, happly⟩ | hcs
    · obtain ⟨cs, rfl⟩ := exists_of_apply_eq_encoded hd (fun hsome => by
        obtain ⟨run, -, -, rfl⟩ := exists_of_slashedList? hsome
        exact ⟨_, _, rfl, by decide⟩) happly
      exact h ⟨d, hd, ⟨[], cs, rfl⟩⟩
    · exact ih htail hcs

/-! ## Infix operators -/

/-- The characters that operators are made of. -/
def isOperatorChar (c : Char) : Bool := isNameChar c || operatorSigns.contains c

theorem isOperatorChar_spec {c : Char} (h : isOperatorChar c) :
    c ≠ '%' ∧ c ∉ Token.punctuation := by
  refine ⟨?_, fun hc => ?_⟩
  · rintro rfl
    revert h
    decide
  · obtain ⟨-, hname, -, hsign, -⟩ := punctuation_spec hc
    simp [isOperatorChar, hname, hsign] at h

/-- An operator that is read off a text: its characters, and what follows it. -/
def ReadsOperator (cs : List Char) (m : List Char × List Char) : Prop :=
  (∀ c ∈ m.1, isOperatorChar c) ∧ m.1 ++ m.2 = cs

theorem readsOperator_namedOperator {sign : List Char} (h : ∀ c ∈ sign, isOperatorChar c)
    (cs : List Char) : ReadsOperator (sign ++ cs) (namedOperator sign cs) := by
  unfold namedOperator
  split
  · next rest hrest =>
    refine ⟨fun c hc => ?_, ?_⟩
    · rcases List.mem_append.mp hc with hc | hc
      · rcases List.mem_append.mp hc with hc | hc
        · exact h c hc
        · simp [isOperatorChar, List.mem_takeWhile_imp hc]
      · obtain rfl := List.mem_singleton.mp hc
        decide
    · rw [List.append_assoc, List.append_assoc, List.singleton_append, ← hrest,
        List.takeWhile_append_dropWhile]
  · exact ⟨h, rfl⟩

/-- What is found as an operator is read off the front of the text. -/
theorem readsOperator_of_operator? {cs : List Char} {m : List Char × List Char}
    (h : operator? cs = some m) : ReadsOperator cs m := by
  have hnamed : ∀ {sign cs : List Char}, sign.all isOperatorChar →
      some (namedOperator sign cs) = some m → ReadsOperator (sign ++ cs) m := by
    intro sign cs hsign heq
    rw [← Option.some.inj heq]
    exact readsOperator_namedOperator (List.all_eq_true.mp hsign) cs
  unfold operator? at h
  split at h
  · exact hnamed (by decide) h
  · exact hnamed (by decide) h
  · exact hnamed (by decide) h
  · exact hnamed (by decide) h
  · cases h
    exact ⟨by simp [isOperatorChar, operatorSigns], rfl⟩
  · cases h
    exact ⟨by simp [isOperatorChar, operatorSigns], rfl⟩
  · cases h

theorem isOperatorChar_operatorName {op : List Char} (h : ∀ c ∈ op, isOperatorChar c) :
    ∀ c ∈ operatorName op, isOperatorChar c := by
  unfold operatorName
  split_ifs
  · split
    · next comparison _ => cases comparison <;> exact List.all_eq_true.mp (by decide)
    · exact h
  · intro c hc
    exact h c (List.mem_of_mem_tail (List.mem_of_mem_dropLast hc))

/-- What the infix rule writes: a name of operator characters, and two parts of the text. -/
theorem exists_of_infixOperator? {cs out rest : List Char}
    (h : infixOperator? cs = some (out, rest)) :
    ∃ name left right, out = name ++ '(' :: (left ++ ',' :: (right ++ [')'])) ∧
      (∀ c ∈ name, isOperatorChar c) ∧ left <:+: cs ∧ right <:+: cs ∧ rest <:+ cs := by
  unfold infixOperator? at h
  dsimp only at h
  split at h
  · next op afterOp hop =>
    cases h
    obtain ⟨hchars, hread⟩ := readsOperator_of_operator? hop
    have hafter : afterOp <:+ cs := List.IsSuffix.trans ⟨op, hread⟩ (operand_suffix false cs)
    have hright : (operand true afterOp).1 <+: afterOp :=
      ⟨_, operand_append_eq true afterOp⟩
    have hleft : (operand false cs).1 <+: cs := ⟨_, operand_append_eq false cs⟩
    exact ⟨operatorName op, (operand false cs).1, (operand true afterOp).1, by simp,
      isOperatorChar_operatorName hchars, hleft.isInfix, hright.isInfix.trans hafter.isInfix,
      (operand_suffix true afterOp).trans hafter⟩
  · cases h

/-- An encoded sign is a part of a word that does not end an argument. -/
def SignsInNames (cs : List Char) : Prop :=
  ∀ {front back : List Char} {c : Char}, c ∈ ['C', 'c', 'E', 'e'] →
    cs = front ++ (['%', '3', c] ++ back) → ¬ Closes (back.dropWhile isWordChar)

theorem not_closes_dropWhile {name : List Char} (h : ∀ c ∈ name, c ∉ closingSigns)
    (rest : List Char) : ¬ Closes ((name ++ '(' :: rest).dropWhile isWordChar) := by
  induction name with
  | nil =>
    have hopening : isWordChar '(' = false := by decide
    rw [List.nil_append, List.dropWhile_cons_of_neg (by simp [hopening]), closes_cons]
    decide
  | cons c name ih =>
    obtain ⟨hc, hname⟩ := List.forall_mem_cons.mp h
    rw [List.cons_append, List.dropWhile_cons]
    split_ifs
    · exact ih hname
    · exact fun hcloses => hc (closes_cons.mp hcloses)

theorem isWordChar_encoded {c : Char} (hc : c ∈ ['C', 'c', 'E', 'e']) :
    ∀ d ∈ ['%', '3', c], isWordChar d := by
  simp only [List.mem_cons, List.not_mem_nil, or_false] at hc
  rcases hc with rfl | rfl | rfl | rfl <;> exact List.all_eq_true.mp (by decide)

/-- An encoded sign at the front of what the expansion makes of a word: it is not all in the word,
so the name of an operator is written behind the word. -/
theorem signsInNames_front {cs back : List Char} {c : Char} (hsign : ¬ HasEncodedSign ('%' :: cs))
    (hnone : infixOperator? ('%' :: cs) = none) (hc : c ∈ ['C', 'c', 'E', 'e'])
    (h : infixOperator.apply ('%' :: cs) = ['%', '3', c] ++ back) :
    ¬ Closes (back.dropWhile isWordChar) := by
  obtain ⟨w, rest, hcs, hw, hrest⟩ : ∃ w rest, '%' :: cs = w ++ rest ∧
      (∀ c ∈ w, isWordChar c) ∧ EndsWord rest :=
    ⟨_, _, List.takeWhile_append_dropWhile.symm, fun _ => List.mem_takeWhile_imp,
      endsWord_dropWhile _⟩
  have hop : operator? rest = none := by
    have hoperand : operand false ('%' :: cs) = (w, rest) := by
      rw [operand_eq_word (by simp), hcs, takeWhile_word hw hrest, dropWhile_word hw hrest]
    cases hread : operator? rest with
    | none => rfl
    | some m => simp [infixOperator?, hoperand, hread] at hnone
  rw [hcs, apply_word hw hrest hop] at h
  cases hfront : infixOperator? rest with
  | some m =>
    obtain ⟨out, after⟩ := m
    obtain ⟨name, left, right, rfl, hname, -⟩ := exists_of_infixOperator? hfront
    have hclosing : ∀ c ∈ w ++ name, c ∉ closingSigns := by
      intro d hd hmem
      rcases List.mem_append.mp hd with hd | hd
      · exact absurd (hw d hd) (by simp [(closingSigns_spec hmem).1])
      · exact (isOperatorChar_spec (hname d hd)).2 (closingSigns_subset hmem)
    rw [infixOperator.apply_of_some hfront, List.append_assoc, List.cons_append,
      ← List.append_assoc] at h
    have hdrop := not_closes_dropWhile hclosing
      (left ++ ',' :: (right ++ [')']) ++ infixOperator.apply after)
    rw [h, List.dropWhile_append_of_pos (isWordChar_encoded hc)] at hdrop
    exact hdrop
  | none =>
    have hends : EndsWord (infixOperator.apply rest) := by
      cases rest with
      | nil => simpa using hrest
      | cons d rest =>
        rw [infixOperator.apply_of_none hfront]
        exact endsWord_cons.mpr (endsWord_cons.mp hrest)
    have htake := congrArg (List.takeWhile isWordChar) h
    rw [takeWhile_word hw hends, List.takeWhile_append_of_pos (isWordChar_encoded hc)] at htake
    refine absurd ⟨c, hc, [], List.takeWhile isWordChar back ++ rest, ?_⟩ hsign
    rw [hcs, htake]
    simp

/-- **Expanding infix operators makes encoded signs in names only.** -/
theorem signsInNames_apply {cs : List Char} (h : ¬ HasEncodedSign cs) :
    SignsInNames (infixOperator.apply cs) := by
  have hparenthesis : ∀ {c}, c ∈ ['C', 'c', 'E', 'e'] → ')' ∉ ['%', '3', c] := by
    intro c hc
    simp only [List.mem_cons, List.not_mem_nil, or_false] at hc
    rcases hc with rfl | rfl | rfl | rfl <;> decide
  fun_induction infixOperator.apply cs with
  | case1 =>
    intro front back c _ heq
    simp at heq
  | case2 c cs out rest hsome ih =>
    intro front back d hd heq
    obtain ⟨name, left, right, rfl, hname, hleft, hright, hrest⟩ := exists_of_infixOperator? hsome
    have hpart : ∀ {ds}, ds <:+: c :: cs → ¬ HasEncodedSign ds := fun hds hsign =>
      h (hsign.of_isInfix hds)
    have hout : ¬ HasEncodedSign (name ++ '(' :: (left ++ ',' :: right)) := by
      rw [hasEncodedSign_append_sign_iff (by decide), hasEncodedSign_append_sign_iff (by decide)]
      rintro (hsign | hsign | hsign)
      · exact not_hasEncodedSign_of_notMem
          (fun hmem => (isOperatorChar_spec (hname '%' hmem)).1 rfl) hsign
      · exact hpart hleft hsign
      · exact hpart hright hsign
    have heq : name ++ '(' :: (left ++ ',' :: right) ++ ')' :: infixOperator.apply rest =
        front ++ (['%', '3', d] ++ back) := by simpa using heq
    rcases infix_or_of_append_eq (hparenthesis hd) heq with hwithin | ⟨front', hrest'⟩
    · exact absurd ⟨d, hd, hwithin⟩ hout
    · exact ih (hpart hrest.isInfix) hd hrest'
  | case3 c cs hnone ih =>
    intro front back d hd heq
    cases front with
    | cons e front =>
      have hcs : ¬ HasEncodedSign cs := fun hsign =>
        h (hsign.of_isInfix (List.suffix_cons c cs).isInfix)
      exact ih hcs hd (List.cons.inj heq).2
    | nil =>
      obtain rfl : c = '%' := (List.cons.inj heq).1
      rw [← infixOperator.apply_of_none hnone] at heq
      exact signsInNames_front h hnone hd heq

end Shorthand

namespace Dialect

open Shorthand

/-- Text without encoded signs and slashes is not touched before infix operators are expanded. -/
theorem prepare_eq_self {d : Dialect} {cs : List Char} (hsign : ¬ HasEncodedSign cs)
    (hslash : '/' ∉ cs) : d.prepare cs = cs := by
  have hdecode : encodedOperator.applyIf d.encodedOperators (cs ++ []) =
      cs ++ encodedOperator.applyIf d.encodedOperators [] :=
    decode_of_not_hasEncodedSign (fun _ => hsign) (by simp)
  have hexpand : slashedList.applyIf d.slashedLists (cs ++ []) =
      cs ++ slashedList.applyIf d.slashedLists [] := expandSlashes_of_notMem hslash (by simp)
  rw [Rule.applyIf_nil, List.append_nil] at hdecode hexpand
  rw [prepare, hdecode, hexpand]

end Dialect

end ResourceQuery
