import ResourceQuery.CanonicalText
import ResourceQuery.Proofs.Parser.Reading

/-!
# Expanding canonical text

Canonical text uses infix operators, and the expansion of a text has to turn each of them into
the term it stands for and to leave everything else alone.  The danger is in what is next to an
operator: a flat list in front of one is its operand, and a name after a `=` may become a part
of it.  So texts are expanded in front of every rest that canonical text puts there, and a text
in parentheses is known not to close them early.

## Main definitions

* `Shorthand.Closes`: a rest that ends an argument
* `Shorthand.OpensFirst`: no `)` comes before the first parenthesis that opens
* `Shorthand.Expands`: the expansion of a text spells some tokens, whatever closes it

## Main results

* `Shorthand.expands_word`, `Shorthand.expands_inParentheses`, `Shorthand.expands_term`: what
  is copied
* `Shorthand.expands_infix`: a comparison in infix form expands to its term
-/

namespace ResourceQuery

namespace Shorthand

open Text Token

/-- The characters that end an argument. -/
def closingSigns : List Char := [')', ',', '&', '|']

/-- The characters that operators start with. -/
def operatorSigns : List Char := ['<', '>', '!', '=']

/-- The characters of which every operator has one. -/
def comparisonSigns : List Char := ['<', '>', '=']

theorem comparisonSigns_subset : comparisonSigns ⊆ operatorSigns := by
  simp [comparisonSigns, operatorSigns]

/-- A sign that closes an operand is no character of a word, a name or an operator. -/
theorem closingSigns_spec {c : Char} (hc : c ∈ closingSigns) :
    isWordChar c = false ∧ isNameChar c = false ∧ c ∉ operatorSigns ∧ c ≠ '(' := by
  simp only [closingSigns, List.mem_cons, List.not_mem_nil, or_false] at hc
  rcases hc with rfl | rfl | rfl | rfl <;> decide

theorem isListChar_of_mem_operatorSigns {c : Char} (hc : c ∈ operatorSigns) :
    isListChar c = false := by
  simp only [operatorSigns, List.mem_cons, List.not_mem_nil, or_false] at hc
  rcases hc with rfl | rfl | rfl | rfl <;> decide

/-- A text that ends an argument: nothing follows, or a separator or `)`. -/
def Closes (cs : List Char) : Prop := ∀ c ∈ cs.head?, c ∈ closingSigns

theorem closes_nil : Closes [] := by
  simp [Closes]

theorem closes_cons {c : Char} {cs : List Char} : Closes (c :: cs) ↔ c ∈ closingSigns := by
  simp [Closes]

/-- Where an operand is closed a word ends. -/
theorem Closes.endsWord {cs : List Char} (h : Closes cs) : EndsWord cs := by
  intro c hc
  exact (closingSigns_spec (h c hc)).1

/-- There is no operator where none of its signs is: every pattern of `operator?` but the last
starts with one. -/
theorem operator?_eq_none {cs : List Char} (h : ∀ c ∈ cs.head?, c ∉ operatorSigns) :
    operator? cs = none := by
  unfold operator?
  split
  all_goals first
    | rfl
    | exact absurd (h _ rfl) (by decide)

/-- No operator follows where an operand is closed. -/
theorem Closes.operator? {cs : List Char} (h : Closes cs) : operator? cs = none := by
  refine operator?_eq_none ?_
  intro c hc
  exact (closingSigns_spec (h c hc)).2.2.1

theorem Closes.ne_opening {cs : List Char} (h : Closes cs) : ∀ c ∈ cs.head?, c ≠ '(' := by
  intro c hc
  exact (closingSigns_spec (h c hc)).2.2.2

/-! ## What is copied -/

/-- A list starts with `(`. -/
theorem flatList?_eq_none {mayBeEmpty : Bool} {cs : List Char} (h : ∀ c ∈ cs.head?, c ≠ '(') :
    flatList? mayBeEmpty cs = none := by
  unfold flatList?
  split
  · exact absurd rfl (h '(' rfl)
  · rfl

/-- Without a `(` the operand is the word that the text starts with. -/
theorem operand_eq_word {mayBeEmpty : Bool} {cs : List Char} (h : ∀ c ∈ cs.head?, c ≠ '(') :
    operand mayBeEmpty cs = (cs.takeWhile isWordChar, cs.dropWhile isWordChar) := by
  rw [operand, flatList?_eq_none h, Option.getD_none]

/-- Nothing is replaced where no operator follows the operand. -/
theorem infixOperator?_eq_none {cs : List Char}
    (h : operator? (operand false cs).2 = none) : infixOperator? cs = none := by
  simp [infixOperator?, h]

theorem ne_opening_of_isWordChar {c : Char} (h : isWordChar c) : c ≠ '(' := by
  rintro rfl
  revert h
  decide

/-- A word is copied, if no operator follows it. -/
theorem apply_word {w rest : List Char} (hw : ∀ c ∈ w, isWordChar c) (hends : EndsWord rest)
    (hop : operator? rest = none) :
    infixOperator.apply (w ++ rest) = w ++ infixOperator.apply rest := by
  induction w with
  | nil => rfl
  | cons c w ih =>
    obtain ⟨hc, hw'⟩ := List.forall_mem_cons.mp hw
    have hnone : infixOperator? (c :: w ++ rest) = none := by
      refine infixOperator?_eq_none ?_
      rw [operand_eq_word (by simpa using ne_opening_of_isWordChar hc), dropWhile_word hw hends]
      exact hop
    rw [List.cons_append] at hnone ⊢
    rw [infixOperator.apply_of_none hnone, ih hw', List.cons_append]

/-- Separators and closing parentheses are copied. -/
theorem apply_closing {c : Char} (hc : c ∈ closingSigns) (rest : List Char) :
    infixOperator.apply (c :: rest) = c :: infixOperator.apply rest := by
  have hcloses : Closes (c :: rest) := closes_cons.mpr hc
  refine infixOperator.apply_of_none (infixOperator?_eq_none ?_)
  rw [operand_eq_word hcloses.ne_opening, hcloses.endsWord.dropWhile]
  exact hcloses.operator?

/-- Before the first character that is neither a word character nor a comma, there is no `)`. -/
def OpensFirst (cs : List Char) : Prop := ∀ c ∈ (cs.dropWhile isListChar).head?, c ≠ ')'

theorem isListChar_of_isWordChar {c : Char} (h : isWordChar c) : isListChar c := by
  simp [isListChar, h]

theorem opensFirst_of_isListChar {cs : List Char} (h : ∀ c ∈ cs, isListChar c) :
    OpensFirst cs := by
  simp [OpensFirst, List.dropWhile_eq_nil_iff.mpr h]

theorem opensFirst_cons {c : Char} (hc : c ≠ ')') (hlist : isListChar c = false)
    (cs : List Char) : OpensFirst (c :: cs) := by
  simpa [OpensFirst, List.dropWhile, hlist] using hc

/-- A text that opens a parenthesis before it closes one may follow another.  A list character is
passed over; any other decides, and what follows it does not matter. -/
theorem OpensFirst.append {as bs : List Char} (ha : OpensFirst as) (hb : OpensFirst bs) :
    OpensFirst (as ++ bs) := by
  induction as with
  | nil => exact hb
  | cons a as ih =>
    by_cases hlist : isListChar a
    · have hdrop : ∀ cs, (a :: cs).dropWhile isListChar = cs.dropWhile isListChar := fun cs => by
        simp [List.dropWhile, hlist]
      unfold OpensFirst at ha ih ⊢
      rw [hdrop] at ha
      rw [List.cons_append, hdrop]
      exact ih ha
    · have hne : a ≠ ')' := ha a (by simp [List.dropWhile, hlist])
      exact opensFirst_cons hne (by simpa using hlist) _

theorem OpensFirst.cons {c : Char} (hc : c ≠ ')') {cs : List Char} (h : OpensFirst cs) :
    OpensFirst (c :: cs) := by
  by_cases hlist : isListChar c
  · simpa [OpensFirst, List.dropWhile, hlist] using h
  · exact opensFirst_cons hc (by simpa using hlist) cs

/-- A text that opens no parenthesis before it closes one has list characters only up to a `)`. -/
theorem exists_of_not_opensFirst {cs : List Char} (h : ¬ OpensFirst cs) :
    ∃ body after, cs = body ++ ')' :: after ∧ ∀ c ∈ body, isListChar c := by
  obtain ⟨after, hafter⟩ : ∃ after, cs.dropWhile isListChar = ')' :: after := by
    simpa [OpensFirst, List.head?_eq_some_iff] using h
  refine ⟨cs.takeWhile isListChar, after, ?_, fun c => List.mem_takeWhile_imp⟩
  rw [← hafter, List.takeWhile_append_dropWhile]

/-- No list without parentheses inside starts in front of a text that opens one first. -/
theorem flatList?_of_opensFirst (mayBeEmpty : Bool) {cs : List Char} (h : OpensFirst cs) :
    flatList? mayBeEmpty ('(' :: cs) = none := by
  rw [flatList?]
  split
  · next after hafter => exact absurd rfl (h ')' (by rw [hafter]; rfl))
  · rfl

/-- A list without parentheses inside ends at the first `)`. -/
theorem flatList?_of_isListChar (mayBeEmpty : Bool) {body : List Char}
    (h : ∀ c ∈ body, isListChar c) (after : List Char) :
    flatList? mayBeEmpty ('(' :: (body ++ ')' :: after)) =
      if body.isEmpty && !mayBeEmpty then none else some ('(' :: body ++ [')'], after) := by
  have hclosing : isListChar ')' = false := by decide
  rw [flatList?, List.dropWhile_append_of_pos h, List.takeWhile_append_of_pos h]
  simp [List.dropWhile, List.takeWhile, hclosing]

/-- An opening parenthesis is copied, if no operator can follow the one that closes it.  Either the
two hold a flat list, and what closes an operand follows it, or no operand starts here. -/
theorem apply_opening {body rest : List Char} (hbody : OpensFirst body) (hrest : Closes rest) :
    infixOperator.apply ('(' :: (body ++ ')' :: rest)) =
      '(' :: infixOperator.apply (body ++ ')' :: rest) := by
  refine infixOperator.apply_of_none (infixOperator?_eq_none ?_)
  have hword : operator? ('(' :: (body ++ ')' :: rest)) = none :=
    operator?_eq_none (by simp [operatorSigns])
  have hnoword : EndsWord ('(' :: (body ++ ')' :: rest)) := endsWord_cons.mpr (by decide)
  by_cases hflat : ∀ c ∈ body, isListChar c
  · rw [operand, flatList?_of_isListChar false hflat]
    split_ifs
    · change operator? (List.dropWhile isWordChar _) = none
      rw [hnoword.dropWhile]
      exact hword
    · exact hrest.operator?
  · obtain ⟨c, hc, hlist⟩ : ∃ c ∈ body, ¬ isListChar c := by simpa using hflat
    cases hdrop : body.dropWhile isListChar with
    | nil => exact absurd (List.dropWhile_eq_nil_iff.mp hdrop c hc) hlist
    | cons d ds =>
      have hd : d ≠ ')' := hbody d (by rw [hdrop]; rfl)
      have hnone : flatList? false ('(' :: (body ++ ')' :: rest)) = none := by
        rw [flatList?, List.dropWhile_append, hdrop]
        simp [hd]
      rw [operand, hnone, Option.getD_none, hnoword.dropWhile]
      exact hword

/-! ## Operands and operators -/

/-- A text that can stand beside an operator: a flat list, or a word that may be empty. -/
def IsOperand (mayBeEmpty : Bool) (cs : List Char) : Prop :=
  TextStyle.isFlatList mayBeEmpty cs ∨ ∀ c ∈ cs, isWordChar c

theorem exists_of_isFlatList {mayBeEmpty : Bool} {cs : List Char}
    (h : TextStyle.isFlatList mayBeEmpty cs) : ∃ body, cs = '(' :: (body ++ [')']) ∧
      (∀ c ∈ body, isListChar c) ∧ (mayBeEmpty ∨ body ≠ []) := by
  unfold TextStyle.isFlatList at h
  split at h
  · next rest =>
    simp only [Bool.and_eq_true, decide_eq_true_eq, List.all_eq_true, Bool.or_eq_true,
      Bool.not_eq_true', List.isEmpty_eq_false_iff] at h
    obtain ⟨⟨hlast, hall⟩, hempty⟩ := h
    exact ⟨rest.dropLast, by rw [List.dropLast_append_getLast? _ hlast], hall, hempty⟩
  · cases h

/-- An operand is found whole, in front of anything that does not go on with it. -/
theorem operand_append {mayBeEmpty : Bool} {cs rest : List Char} (h : IsOperand mayBeEmpty cs)
    (hends : EndsWord rest) (hopen : ∀ c ∈ rest.head?, c ≠ '(') :
    operand mayBeEmpty (cs ++ rest) = (cs, rest) := by
  rcases h with hflat | hword
  · obtain ⟨body, rfl, hbody, hempty⟩ := exists_of_isFlatList hflat
    have hnonempty : ¬ (body.isEmpty && !mayBeEmpty) := by
      rcases hempty with rfl | hne <;> simp_all
    rw [List.cons_append, List.append_assoc, List.singleton_append, operand,
      flatList?_of_isListChar mayBeEmpty hbody, if_neg hnonempty, Option.getD_some,
      List.cons_append]
  · rw [operand_eq_word, takeWhile_word hword hends, dropWhile_word hword hends]
    cases cs with
    | nil => exact hopen
    | cons c cs => simpa using ne_opening_of_isWordChar (hword c (by simp))

theorem notMem_operatorSigns_of_isListChar {c : Char} (h : isListChar c) : c ∉ operatorSigns := by
  intro hc
  simp [isListChar_of_mem_operatorSigns hc] at h

theorem IsOperand.notMem_operatorSigns {mayBeEmpty : Bool} {cs : List Char}
    (h : IsOperand mayBeEmpty cs) : ∀ c ∈ cs, c ∉ operatorSigns := by
  intro c hc
  rcases h with hflat | hword
  · obtain ⟨body, rfl, hbody, -⟩ := exists_of_isFlatList hflat
    rcases List.mem_cons.mp hc with rfl | hc
    · decide
    · rcases List.mem_append.mp hc with hc | hc
      · exact notMem_operatorSigns_of_isListChar (hbody c hc)
      · obtain rfl := List.mem_singleton.mp hc
        decide
  · exact notMem_operatorSigns_of_isListChar (isListChar_of_isWordChar (hword c hc))

/-- An operand is a flat list in parentheses or a word, and the rest of the text follows it. -/
theorem operand_cases (mayBeEmpty : Bool) (cs : List Char) :
    (operand mayBeEmpty cs).1 ++ (operand mayBeEmpty cs).2 = cs ∧
      ((∃ body, (operand mayBeEmpty cs).1 = '(' :: body ++ [')'] ∧ ∀ c ∈ body, isListChar c) ∨
        ∀ c ∈ (operand mayBeEmpty cs).1, isWordChar c) := by
  unfold operand
  cases h : flatList? mayBeEmpty cs with
  | none => exact ⟨List.takeWhile_append_dropWhile, .inr fun c hc => List.mem_takeWhile_imp hc⟩
  | some m =>
    unfold flatList? at h
    split at h
    · next cs =>
      split at h
      · next rest hrest =>
        split_ifs at h
        cases h
        refine ⟨?_, .inl ⟨cs.takeWhile isListChar, rfl, fun c hc => List.mem_takeWhile_imp hc⟩⟩
        simp only [Option.getD_some, List.append_assoc, List.cons_append, List.nil_append]
        rw [← hrest, List.takeWhile_append_dropWhile]
      · cases h
    · cases h

/-- An operand and what follows it make up the text. -/
theorem operand_append_eq (mayBeEmpty : Bool) (cs : List Char) :
    (operand mayBeEmpty cs).1 ++ (operand mayBeEmpty cs).2 = cs :=
  (operand_cases mayBeEmpty cs).1

theorem operand_suffix (mayBeEmpty : Bool) (cs : List Char) : (operand mayBeEmpty cs).2 <:+ cs :=
  ⟨_, operand_append_eq mayBeEmpty cs⟩

/-- There is no operator without one of its signs. -/
theorem operator?_eq_none_of_notMem {cs : List Char} (h : ∀ c ∈ cs, c ∉ comparisonSigns) :
    operator? cs = none := by
  unfold operator?
  split
  all_goals simp_all [comparisonSigns]

/-- A text without operators is its own expansion. -/
theorem apply_eq_self {cs : List Char} (h : ∀ c ∈ cs, c ∉ comparisonSigns) :
    infixOperator.apply cs = cs := by
  induction cs with
  | nil => exact infixOperator.apply_nil
  | cons c cs ih =>
    have hnone : operator? (operand false (c :: cs)).2 = none :=
      operator?_eq_none_of_notMem fun d hd => h d ((operand_suffix false (c :: cs)).subset hd)
    rw [infixOperator.apply_of_none (infixOperator?_eq_none hnone),
      ih (List.forall_mem_cons.mp h).2]

/-- What stands to the right of an operator: no `=` is next or after a name. -/
def EndsOperator (cs : List Char) : Prop :=
  (∀ c ∈ cs.head?, c ≠ '=') ∧ ∀ c ∈ (cs.dropWhile isNameChar).head?, c ≠ '='

/-- An operator ends in front of what has no signs of operators. -/
theorem endsOperator_append {cs rest : List Char} (h : ∀ c ∈ cs, c ∉ operatorSigns)
    (hrest : Closes rest) : EndsOperator (cs ++ rest) := by
  have hsign : ∀ c, c ∉ operatorSigns → c ≠ '=' := by
    rintro c hc rfl
    exact hc (by decide)
  induction cs with
  | nil =>
    cases rest with
    | nil => simp [EndsOperator]
    | cons c rest =>
      obtain ⟨-, hname, hc, -⟩ := closingSigns_spec (closes_cons.mp hrest)
      simpa [EndsOperator, List.dropWhile, hname] using hsign c hc
  | cons c cs ih =>
    obtain ⟨hc, hcs⟩ := List.forall_mem_cons.mp h
    refine ⟨by simpa using hsign c hc, ?_⟩
    by_cases hname : isNameChar c
    · simpa [List.dropWhile, hname] using (ih hcs).2
    · simpa [List.dropWhile, hname] using hsign c hc

theorem namedOperator_eq {op cs : List Char} (h : EndsOperator cs) :
    namedOperator op cs = (op, cs) := by
  unfold namedOperator
  split
  · next rest hrest => exact absurd rfl (h.2 '=' (by rw [hrest]; rfl))
  · rfl

/-- A name between two `=` is a part of the operator. -/
theorem namedOperator_name (op : List Char) {w : List Char} (hw : ∀ c ∈ w, isNameChar c)
    (cs : List Char) : namedOperator op (w ++ '=' :: cs) = (op ++ w ++ ['='], cs) := by
  have hsign : isNameChar '=' = false := by decide
  simp [namedOperator, List.dropWhile_append_of_pos hw, List.takeWhile_append_of_pos hw,
    List.dropWhile, List.takeWhile, hsign]

/-- The signs `<` and `>` alone are operators unless a `=` makes them longer. -/
theorem operator?_angle (sign : Char) (hsign : sign ∈ ['<', '>']) {cs : List Char}
    (hcs : ∀ c ∈ cs.head?, c ≠ '=') : operator? (sign :: cs) = some ([sign], cs) := by
  rcases List.mem_pair.mp hsign with rfl | rfl
  all_goals
    unfold operator?
    split
    all_goals simp_all

/-- The sign of a comparison is read as an operator that stands for its term. -/
theorem operator?_symbol {c : Comparison} {symbol : String} (h : c.symbol? = some symbol)
    {cs : List Char} (hcs : EndsOperator cs) :
    operator? (symbol.toList ++ cs) = some (symbol.toList, cs) ∧
      operatorName symbol.toList = c.name.toList := by
  cases c with
  | eq => cases h; exact ⟨congrArg some (namedOperator_eq hcs), by decide⟩
  | ne => cases h; exact ⟨congrArg some (namedOperator_eq hcs), by decide⟩
  | lt => cases h; exact ⟨operator?_angle '<' (by simp) hcs.1, by decide⟩
  | le => cases h; exact ⟨congrArg some (namedOperator_eq hcs), by decide⟩
  | gt => cases h; exact ⟨operator?_angle '>' (by simp) hcs.1, by decide⟩
  | ge => cases h; exact ⟨congrArg some (namedOperator_eq hcs), by decide⟩
  | isIn =>
    have hname : ∀ c ∈ ['i', 'n'], isNameChar c := List.all_eq_true.mp (by decide)
    cases h
    exact ⟨congrArg some (namedOperator_name ['='] hname cs), by decide⟩
  | notIn =>
    have hname : ∀ c ∈ ['n', 'i', 'n'], isNameChar c := List.all_eq_true.mp (by decide)
    cases h
    exact ⟨congrArg some (namedOperator_name ['='] hname cs), by decide⟩
  | all => cases h

/-- A text is read as an operator that stands for a term, in front of every operand. -/
structure IsOperator (op name : List Char) : Prop where
  starts : ∃ sign rest, op = sign :: rest ∧ sign ∈ operatorSigns
  read : ∀ {cs}, EndsOperator cs → operator? (op ++ cs) = some (op, cs)
  name : operatorName op = name

/-- The symbol of a comparison is an operator that stands for its name. -/
theorem isOperator_symbol {c : Comparison} {symbol : String} (h : c.symbol? = some symbol) :
    IsOperator symbol.toList c.name.toList where
  starts := by
    cases c <;> cases h <;> exact ⟨_, _, rfl, by decide⟩
  read hcs := (operator?_symbol h hcs).1
  name := (operator?_symbol h (endsOperator_append (List.forall_mem_nil _) closes_nil)).2

theorem IsOperator.opensFirst {op name : List Char} (h : IsOperator op name) (rest : List Char) :
    OpensFirst (op ++ rest) := by
  obtain ⟨sign, signs, rfl, hsign⟩ := h.starts
  have hclosing : sign ≠ ')' := by
    rintro rfl
    exact absurd hsign (by decide)
  exact opensFirst_cons hclosing (isListChar_of_mem_operatorSigns hsign) _

/-- An operator between its operands becomes a term.  The left operand, the sign and the right
operand are found one after the other. -/
theorem IsOperator.apply_operator {op name left right : List Char} (hop : IsOperator op name)
    (hl : IsOperand false left) (hr : IsOperand true right) {rest : List Char}
    (hrest : Closes rest) : infixOperator.apply (left ++ (op ++ (right ++ rest))) =
      name ++ '(' :: left ++ ',' :: right ++ [')'] ++ infixOperator.apply rest := by
  obtain ⟨sign, signs, rfl, hsign⟩ := hop.starts
  have hlist := isListChar_of_mem_operatorSigns hsign
  have hends : EndsWord (sign :: signs ++ (right ++ rest)) := by
    rw [List.cons_append, endsWord_cons]
    exact Bool.eq_false_iff.mpr fun h => by simp [isListChar, h] at hlist
  have hopening : sign ≠ '(' := by
    rintro rfl
    exact absurd hsign (by decide)
  have hleft := operand_append hl hends (by simpa using hopening)
  have hread := hop.read (endsOperator_append hr.notMem_operatorSigns hrest)
  have hright := operand_append hr hrest.endsWord hrest.ne_opening
  refine infixOperator.apply_of_some ?_
  change infixOperator? _ = _
  simp only [infixOperator?, hleft, hread, hop.name, hright]

/-! ## Texts and the tokens of their expansion -/

/-- The expansion of a text spells some tokens, in front of everything that ends an argument. -/
structure Expands (cs : List Char) (ts : List Token) : Prop where
  apply : ∀ {rest}, Closes rest →
    infixOperator.apply (cs ++ rest) = spelling ts ++ infixOperator.apply rest
  opensFirst : OpensFirst cs

theorem expands_word {w : String} (hw : isWord w) : Expands w.toList [.word w] where
  apply hrest := by
    simpa [chars] using apply_word (isWord_iff.mp hw).2 hrest.endsWord hrest.operator?
  opensFirst :=
    opensFirst_of_isListChar fun c hc => isListChar_of_isWordChar ((isWord_iff.mp hw).2 c hc)

/-- Texts with separators between them expand one by one. -/
theorem expands_intercalate {c : Char} {sign : Token} (hc : c ∈ [',', '&', '|'])
    (hsign : sign.chars = [c]) {css : List (List Char)} {tss : List (List Token)}
    (h : List.Forall₂ Expands css tss) :
    Expands ([c].intercalate css) ([sign].intercalate tss) := by
  induction h with
  | nil => exact ⟨fun _ => rfl, opensFirst_of_isListChar (by simp)⟩
  | @cons cs ts css tss hcs hcss ih =>
    cases hcss with
    | nil => simpa using hcs
    | cons =>
      simp only [List.intercalate_cons_cons, List.append_assoc, List.singleton_append] at ih ⊢
      have hclosing : c ∈ closingSigns := List.mem_cons_of_mem _ hc
      constructor
      · intro rest hrest
        rw [List.append_assoc, List.cons_append, hcs.apply (closes_cons.mpr hclosing),
          apply_closing hclosing, ih.apply hrest]
        simp [hsign]
      · have hsep : OpensFirst [c] := by
          rcases List.mem_cons.mp hc with rfl | hc
          · exact opensFirst_of_isListChar (by simp [isListChar])
          · rcases List.mem_pair.mp hc with rfl | rfl
            · exact opensFirst_cons (by decide) (by decide) []
            · exact opensFirst_cons (by decide) (by decide) []
        exact hcs.opensFirst.append (hsep.append ih.opensFirst)

/-- Parentheses around a text expand to parentheses around its expansion. -/
theorem expands_inParentheses {cs : List Char} {ts : List Token} (h : Expands cs ts) :
    Expands ('(' :: (cs ++ [')'])) (Parser.inParentheses ts) where
  apply {rest} hrest := by
    have hclosing : ')' ∈ closingSigns := by decide
    simp only [List.cons_append, List.append_assoc, List.nil_append]
    rw [apply_opening h.opensFirst hrest, h.apply (closes_cons.mpr hclosing),
      apply_closing hclosing]
    simp [Parser.inParentheses, chars]
  opensFirst := opensFirst_cons (by decide) (by decide) _

/-- A name is copied in front of its arguments. -/
theorem expands_term {name : String} (hname : isWord name) {cs : List Char} {ts : List Token}
    (h : Expands cs ts) :
    Expands (name.toList ++ '(' :: (cs ++ [')'])) (.word name :: Parser.inParentheses ts) where
  apply {rest} hrest := by
    have hargs := (expands_inParentheses h).apply hrest
    have hends : EndsWord ('(' :: (cs ++ [')'] ++ rest)) := endsWord_cons.mpr (by decide)
    have hop : operator? ('(' :: (cs ++ [')'] ++ rest)) = none :=
      operator?_eq_none (by simp [operatorSigns])
    rw [List.append_assoc, List.cons_append, apply_word (isWord_iff.mp hname).2 hends hop,
      ← List.cons_append, hargs, spelling_cons, List.append_assoc]
    rfl
  opensFirst := by
    have hword : OpensFirst name.toList :=
      opensFirst_of_isListChar fun c hc => isListChar_of_isWordChar ((isWord_iff.mp hname).2 c hc)
    exact hword.append (opensFirst_cons (by decide) (by decide) _)

/-- Without operators a text is its own expansion. -/
theorem Expands.spelling_eq {cs : List Char} {ts : List Token} (h : Expands cs ts)
    (hcs : ∀ c ∈ cs, c ∉ operatorSigns) : spelling ts = cs := by
  have hself := h.apply closes_nil
  have hsigns : ∀ c ∈ cs, c ∉ comparisonSigns := fun c hc hmem =>
    hcs c hc (comparisonSigns_subset hmem)
  rw [List.append_nil, apply_eq_self hsigns, infixOperator.apply_nil, List.append_nil] at hself
  exact hself.symm

/-- **A comparison in infix form expands to its term.** -/
theorem expands_infix {c : Comparison} {symbol : String} (hsymbol : c.symbol? = some symbol)
    {left right : List Char} {ls rs : List Token} (hleft : Expands left ls)
    (hright : Expands right rs) (hl : IsOperand false left) (hr : IsOperand true right) :
    Expands (left ++ symbol.toList ++ right)
      (.word c.name :: Parser.inParentheses (ls ++ .comma :: rs)) := by
  have hop := isOperator_symbol hsymbol
  constructor
  · intro rest hrest
    rw [List.append_assoc, List.append_assoc, hop.apply_operator hl hr hrest]
    simp [hleft.spelling_eq hl.notMem_operatorSigns, hright.spelling_eq hr.notMem_operatorSigns,
      Parser.inParentheses, chars]
  · rw [List.append_assoc]
    exact hleft.opensFirst.append (hop.opensFirst right)

end Shorthand

end ResourceQuery
