import ResourceQuery.Proofs.CanonicalText.RoundTrip
import ResourceQuery.Proofs.Shorthand.Context

/-!
# Spellings of operators

An operator can be spelled in several ways: `a=b`, `a==b`, `a=eq=b` and `eq(a,b)` are one
comparison, and a transport that encodes the signs adds `a%3Cb` to `a<b`, `a=lt=b` and `lt(a,b)`.
All spellings expand to the last one, wherever a condition may stand and whatever stands around
it, so that parsers cannot tell them apart.

## Main definitions

* `Shorthand.plainSigns`, `Shorthand.encodedSigns`: the signs of comparisons
* `Dialect.Abbreviates`: the spellings of an operator between its operands

## Main results

* `Dialect.expand_operator`, `Dialect.expand_application`: both forms expand to the prefix form
* `Parser.spellings_agree`: all spellings of an operator mean the same
-/

namespace ResourceQuery

theorem Comparison.isNameChar_name (c : Comparison) :
    c.name.toList ≠ [] ∧ ∀ d ∈ c.name.toList, Text.isNameChar d := by
  cases c <;> simp [Comparison.name] <;> decide

namespace Shorthand

open Text

/-- The plain signs of comparisons. -/
def plainSigns : List (String × Comparison) :=
  [("=", .eq), ("==", .eq), ("!=", .ne), ("<", .lt), ("<=", .le), (">", .gt), (">=", .ge)]

/-- The encoded signs of comparisons. -/
def encodedSigns : List (String × Comparison) :=
  [("%3C", .lt), ("%3c", .lt), ("%3C=", .le), ("%3c=", .le),
    ("%3E", .gt), ("%3e", .gt), ("%3E=", .ge), ("%3e=", .ge)]

/-! ## Operators -/

theorem operator?_named {w : List Char} (hw : ∀ c ∈ w, isNameChar c) (cs : List Char) :
    operator? ('=' :: (w ++ ['=']) ++ cs) = some ('=' :: (w ++ ['=']), cs) := by
  have hnamed := namedOperator_name ['='] hw cs
  simp only [List.cons_append, List.append_assoc, List.nil_append]
  rw [operator?, hnamed]
  rfl

/-- A name between two `=` is an operator that stands for it. -/
theorem isOperator_named {w : List Char} (hne : w ≠ []) (hw : ∀ c ∈ w, isNameChar c) :
    IsOperator ('=' :: (w ++ ['='])) w where
  starts := ⟨'=', w ++ ['='], rfl, by decide⟩
  read _ := operator?_named hw _
  name := by
    have hlength : ¬ ('=' :: (w ++ ['='])).length < 3 := by
      have := List.length_pos_iff.mpr hne
      simp
      omega
    rw [operatorName, if_neg hlength, List.tail_cons, List.dropLast_concat]

theorem isOperator_plain {op : String} {c : Comparison} (h : (op, c) ∈ plainSigns) :
    IsOperator op.toList c.name.toList := by
  simp only [plainSigns, List.mem_cons, List.not_mem_nil, or_false, Prod.mk.injEq] at h
  rcases h with ⟨rfl, rfl⟩ | ⟨rfl, rfl⟩ | ⟨rfl, rfl⟩ | ⟨rfl, rfl⟩ | ⟨rfl, rfl⟩ | ⟨rfl, rfl⟩ |
    ⟨rfl, rfl⟩
  · exact isOperator_symbol (c := .eq) rfl
  · -- Two `=` are a name between them that is empty.
    exact ⟨⟨'=', ['='], rfl, by decide⟩, fun _ => operator?_named (List.forall_mem_nil _) _,
      by decide⟩
  · exact isOperator_symbol (c := .ne) rfl
  · exact isOperator_symbol (c := .lt) rfl
  · exact isOperator_symbol (c := .le) rfl
  · exact isOperator_symbol (c := .gt) rfl
  · exact isOperator_symbol (c := .ge) rfl

theorem encodedOperator?_sign {op : String} {c : Comparison} (h : (op, c) ∈ encodedSigns)
    {rest : List Char} (hrest : EndsOperator rest) :
    encodedOperator? (op.toList ++ rest) = some ('=' :: (c.name.toList ++ ['=']), rest) := by
  have hplain : ∀ plain orEqual, signOperator plain orEqual rest = (plain.toList, rest) := by
    intro plain orEqual
    unfold signOperator
    split
    · exact absurd rfl (hrest.1 '=' rfl)
    · rfl
  have horEqual : ∀ plain orEqual, signOperator plain orEqual ('=' :: rest) =
      (orEqual.toList, rest) := fun _ _ => rfl
  simp only [encodedSigns, List.mem_cons, List.not_mem_nil, or_false, Prod.mk.injEq] at h
  rcases h with ⟨rfl, rfl⟩ | ⟨rfl, rfl⟩ | ⟨rfl, rfl⟩ | ⟨rfl, rfl⟩ |
    ⟨rfl, rfl⟩ | ⟨rfl, rfl⟩ | ⟨rfl, rfl⟩ | ⟨rfl, rfl⟩
  all_goals simp [encodedOperator?, hplain, horEqual, Comparison.name]

/-! ## Operands -/

theorem IsOperand.notMem_slash {mayBeEmpty : Bool} {cs : List Char} (h : IsOperand mayBeEmpty cs) :
    '/' ∉ cs := by
  rcases h with hflat | hword
  · obtain ⟨body, rfl, hbody, -⟩ := exists_of_isFlatList hflat
    have hslash : '/' ∉ body := fun hmem => absurd (hbody '/' hmem) (by decide)
    simpa using hslash
  · exact fun hmem => absurd (hword '/' hmem) (by decide)

theorem IsOperand.opensFirst {mayBeEmpty : Bool} {cs : List Char} (h : IsOperand mayBeEmpty cs) :
    OpensFirst cs := by
  rcases h with hflat | hword
  · obtain ⟨body, rfl, -, -⟩ := exists_of_isFlatList hflat
    exact opensFirst_cons (by decide) (by decide) _
  · exact opensFirst_of_isListChar fun c hc => isListChar_of_isWordChar (hword c hc)

/-- What is inside of a flat list is copied. -/
theorem apply_list {body rest : List Char} (hbody : ∀ c ∈ body, isListChar c)
    (hrest : Closes rest) :
    infixOperator.apply (body ++ rest) = body ++ infixOperator.apply rest := by
  induction body with
  | nil => rfl
  | cons c body ih =>
    have hop : operator? ((c :: body ++ rest).dropWhile isWordChar) = none := by
      refine operator?_eq_none fun d hd => ?_
      rcases mem_or_of_dropWhile hrest.endsWord hd with hmem | hmem
      · exact notMem_operatorSigns_of_isListChar (hbody d hmem)
      · exact (closingSigns_spec (hrest d hmem)).2.2.1
    have hc : c ≠ '(' := by
      rintro rfl
      exact absurd (hbody '(' (by simp)) (by decide)
    have hnone : infixOperator? (c :: body ++ rest) = none := by
      refine infixOperator?_eq_none ?_
      rw [operand_eq_word (by simpa using hc)]
      exact hop
    rw [List.cons_append] at hnone ⊢
    rw [infixOperator.apply_of_none hnone, ih (List.forall_mem_cons.mp hbody).2, List.cons_append]

/-- An operand is copied, if no operator follows it. -/
theorem IsOperand.apply {mayBeEmpty : Bool} {cs rest : List Char} (h : IsOperand mayBeEmpty cs)
    (hrest : Closes rest) : infixOperator.apply (cs ++ rest) = cs ++ infixOperator.apply rest := by
  rcases h with hflat | hword
  · obtain ⟨body, rfl, hbody, -⟩ := exists_of_isFlatList hflat
    have hclosing : ')' ∈ closingSigns := by decide
    rw [List.cons_append, List.append_assoc, List.singleton_append,
      apply_opening (opensFirst_of_isListChar hbody) hrest,
      apply_list hbody (closes_cons.mpr hclosing), apply_closing hclosing]
    simp
  · exact apply_word hword hrest.endsWord hrest.operator?

/-- The prefix form is copied. -/
theorem apply_application {name left right rest : List Char} (hname : ∀ c ∈ name, isNameChar c)
    (hl : IsOperand false left) (hr : IsOperand true right) (hrest : Closes rest) :
    infixOperator.apply (name ++ '(' :: (left ++ ',' :: (right ++ ')' :: rest))) =
      name ++ '(' :: (left ++ ',' :: (right ++ ')' :: infixOperator.apply rest)) := by
  have hword : ∀ c ∈ name, isWordChar c := fun c hc => by simp [isWordChar, hname c hc]
  have hcomma : ',' ∈ closingSigns := by decide
  have hclosing : ')' ∈ closingSigns := by decide
  have hbody : OpensFirst (left ++ ',' :: right) :=
    hl.opensFirst.append (hr.opensFirst.cons (by decide))
  have hopening := apply_opening hbody hrest
  simp only [List.append_assoc, List.cons_append] at hopening
  rw [apply_word hword (endsWord_cons.mpr (by decide))
      (operator?_eq_none (by simp [operatorSigns])), hopening, hl.apply (closes_cons.mpr hcomma),
    apply_closing hcomma, hr.apply (closes_cons.mpr hclosing), apply_closing hclosing]

end Shorthand

/-! ## Spellings -/

namespace Dialect

open Shorthand Text TextStyle

/-- An operator between its operands is short for a name: by a plain sign, with the name between
two `=`, or by an encoded sign if the dialect has them. -/
inductive Abbreviates (d : Dialect) : String → String → Prop
  | plain {op : String} {c : Comparison} (h : (op, c) ∈ plainSigns) : Abbreviates d op c.name
  | named {w : String} (hne : w ≠ "") (hw : ∀ c ∈ w.toList, isNameChar c) :
      Abbreviates d ("=" ++ w ++ "=") w
  | encoded {op : String} {c : Comparison} (h : (op, c) ∈ encodedSigns)
      (hd : d.encodedOperators) : Abbreviates d op c.name

variable {d : Dialect} {back : List Char}

/-- What operators are short for is written with name characters. -/
theorem Abbreviates.isNameChar {op name : String} (h : d.Abbreviates op name) :
    name.toList ≠ [] ∧ ∀ c ∈ name.toList, Text.isNameChar c := by
  cases h with
  | plain => exact Comparison.isNameChar_name _
  | named hne hw => exact ⟨by simpa using hne, hw⟩
  | encoded => exact Comparison.isNameChar_name _

theorem Abbreviates.starts {op name : String} (h : d.Abbreviates op name) :
    ∃ c cs, op.toList = c :: cs ∧ Text.isNameChar c = false := by
  cases h with
  | plain h =>
    obtain ⟨c, cs, hop, hc⟩ := (isOperator_plain h).starts
    have hlist := isListChar_of_mem_operatorSigns hc
    simp only [isListChar, isWordChar, Bool.or_eq_false_iff] at hlist
    exact ⟨c, cs, hop, hlist.1.1⟩
  | named => exact ⟨'=', name.toList ++ ['='], by simp, by decide⟩
  | encoded h hd =>
    have hpercent : ∀ sign ∈ encodedSigns, sign.1.toList.head? = some '%' := by decide
    obtain ⟨cs, hcs⟩ := List.head?_eq_some_iff.mp (hpercent _ h)
    exact ⟨'%', cs, hcs, by decide⟩

/-- Decoding makes of every spelling an operator that stands for the same name. -/
theorem Abbreviates.exists_decode {op name : String} (h : d.Abbreviates op name) :
    ∃ op', IsOperator op' name.toList ∧ '/' ∉ op' ∧ ∀ {rest}, EndsOperator rest →
      encodedOperator.applyIf d.encodedOperators (op.toList ++ rest) =
        op' ++ encodedOperator.applyIf d.encodedOperators rest := by
  obtain ⟨hne, hw⟩ := h.isNameChar
  have hnamed : ∀ c ∈ ['/', '%'], c ∉ '=' :: (name.toList ++ ['=']) := by
    intro c hc hmem
    have hc' : Text.isNameChar c = false ∧ c ≠ '=' := by
      rcases List.mem_pair.mp hc with rfl | rfl <;> decide
    simp only [List.mem_cons, List.mem_append, List.not_mem_nil, or_false, hc'.2, false_or] at hmem
    simp [hw c hmem] at hc'
  cases h with
  | plain h =>
    have hchars : ∀ sign ∈ plainSigns, '/' ∉ sign.1.toList ∧ '%' ∉ sign.1.toList := by decide
    exact ⟨op.toList, isOperator_plain h, (hchars _ h).1, fun _ => decode_of_notMem (hchars _ h).2⟩
  | named =>
    have hop : ("=" ++ name ++ "=").toList = '=' :: (name.toList ++ ['=']) := by simp
    rw [hop]
    exact ⟨_, isOperator_named hne hw, hnamed '/' (by simp),
      fun _ => decode_of_notMem (hnamed '%' (by simp))⟩
  | encoded h hd =>
    refine ⟨_, isOperator_named hne hw, hnamed '/' (by simp), fun hrest => ?_⟩
    rw [hd]
    exact encodedOperator.apply_of_some (encodedOperator?_sign h hrest)

section Operands

variable {left right : List Char} (hl : IsOperand false left) (hr : IsOperand true right)
  (hencoded : d.encodedOperators → ¬ HasEncodedSign left ∧ ¬ HasEncodedSign right)
  (hback : Closes back)

include hl hr hencoded hback

/-- Before the infix rule an abbreviated operator becomes one that the rule knows. -/
theorem exists_prepare_operator {op name : String} (hop : d.Abbreviates op name) :
    ∃ op', IsOperator op' name.toList ∧
      d.prepare (left ++ (op.toList ++ (right ++ back))) =
        left ++ (op' ++ (right ++ d.prepare back)) := by
  obtain ⟨op', hop', hslash, hdecode⟩ := hop.exists_decode
  obtain ⟨c, cs, hcs, hc⟩ := hop.starts
  refine ⟨op', hop', ?_⟩
  have hprepare : d.prepare (left ++ op.toList ++ right ++ back) =
      left ++ op' ++ right ++ d.prepare back := by
    refine prepare_append hback ?_ ?_
    · -- Left operand, operator and right operand are decoded one after the other.
      simp only [List.append_assoc]
      rw [decode_of_not_hasEncodedSign (fun h => (hencoded h).1) (by simpa [hcs] using hc),
        hdecode (endsOperator_append hr.notMem_operatorSigns hback),
        decode_of_not_hasEncodedSign (fun h => (hencoded h).2)
          fun c hc => (closingSigns_spec (hback c hc)).2.1]
    · simp [hl.notMem_slash, hr.notMem_slash, hslash]
  simpa using hprepare

/-- The rules before the infix rule leave the prefix form as it is. -/
theorem prepare_application {name : List Char} (hname : ∀ c ∈ name, isNameChar c) :
    d.prepare (name ++ '(' :: (left ++ ',' :: (right ++ ')' :: back))) =
      name ++ '(' :: (left ++ ',' :: (right ++ ')' :: d.prepare back)) := by
  have hpercent : '%' ∉ name := fun hmem => absurd (hname '%' hmem) (by decide)
  have hslash : '/' ∉ name := fun hmem => absurd (hname '/' hmem) (by decide)
  have hprepare : d.prepare (name ++ '(' :: (left ++ ',' :: (right ++ [')'])) ++ back) =
      name ++ '(' :: (left ++ ',' :: (right ++ [')'])) ++ d.prepare back := by
    refine prepare_append hback ?_ ?_
    · simp only [List.append_assoc, List.cons_append, List.nil_append]
      rw [decode_of_notMem hpercent, decode_cons (by decide),
        decode_of_not_hasEncodedSign (fun h => (hencoded h).1) (by simp; decide),
        decode_cons (by decide),
        decode_of_not_hasEncodedSign (fun h => (hencoded h).2) (by simp; decide),
        decode_cons (by decide)]
    · simp [hl.notMem_slash, hr.notMem_slash, hslash]
  simpa using hprepare

end Operands

section Expansion

variable (hd : d.infixOperators) {front back : String} (hfront : Leads front.toList)
  {left right : String} (hleft : isLeftOperand left) (hright : isRightOperand right)
  (hencoded : d.encodedOperators → ¬ HasEncodedSign left.toList ∧ ¬ HasEncodedSign right.toList)
  (hback : Closes back.toList)

include hd hfront hleft hright hencoded hback

/-- **An operator between its operands expands to the prefix form.** -/
theorem expand_operator {op name : String} (hop : d.Abbreviates op name) :
    d.expand (front ++ (left ++ op ++ right) ++ back) =
      d.expand front ++ (name ++ parenthesized "," [left, right]) ++ d.expand back := by
  have hl := isOperand_of_isLeftOperand hleft
  have hr := isOperand_of_isRightOperand hright
  obtain ⟨op', hop', hprepare⟩ := exists_prepare_operator hl hr hencoded hback hop
  have htext : (left ++ op ++ right).toList ++ back.toList =
      left.toList ++ (op.toList ++ (right.toList ++ back.toList)) := by simp
  refine expand_of_apply hd hfront ?_ ?_
  · rw [htext, hprepare]
    exact hl.opensFirst.append (hop'.opensFirst _)
  · rw [htext, hprepare, hop'.apply_operator hl hr (closes_prepare hback)]
    simp [toList_parenthesized]

/-- **The prefix form expands to itself.** -/
theorem expand_application {name : String} (hname : ∀ c ∈ name.toList, isNameChar c) :
    d.expand (front ++ (name ++ parenthesized "," [left, right]) ++ back) =
      d.expand front ++ (name ++ parenthesized "," [left, right]) ++ d.expand back := by
  have hl := isOperand_of_isLeftOperand hleft
  have hr := isOperand_of_isRightOperand hright
  have hprepare := prepare_application hl hr hencoded hback hname
  have htext : (name ++ parenthesized "," [left, right]).toList ++ back.toList =
      name.toList ++ '(' :: (left.toList ++ ',' :: (right.toList ++ ')' :: back.toList)) := by
    simp [toList_parenthesized]
  refine expand_of_apply hd hfront ?_ ?_
  · have hlist : ∀ c ∈ name.toList, isListChar c := fun c hc => by
      simp [isListChar, isWordChar, hname c hc]
    rw [htext, hprepare]
    exact (opensFirst_of_isListChar hlist).append (opensFirst_cons (by decide) (by decide) _)
  · rw [htext, hprepare, apply_application hname hl hr (closes_prepare hback)]
    simp [toList_parenthesized]

end Expansion

end Dialect

/-! ## Canonical text -/

/-- The symbol of a comparison abbreviates its name.  The two comparisons with lists are written
with their names, all others with plain signs. -/
theorem Comparison.abbreviates {c : Comparison} {symbol : String} (h : c.symbol? = some symbol)
    (d : Dialect) : d.Abbreviates symbol c.name := by
  have hnamed : ∀ c : Comparison, d.Abbreviates ("=" ++ c.name ++ "=") c.name := fun c =>
    .named (by cases c <;> decide) c.isNameChar_name.2
  cases c with
  | isIn =>
    cases h
    exact hnamed .isIn
  | notIn =>
    cases h
    exact hnamed .notIn
  | all => cases h
  | _ =>
    cases h
    exact .plain (by simp [Shorthand.plainSigns])

/-- The text of a comparison whose operands can stand beside a sign. -/
theorem node_comparison (style : TextStyle) (c : Comparison) {l r : Node}
    (hl : TextStyle.isLeftOperand (style.node l)) (hr : TextStyle.isRightOperand (style.node r)) :
    style.node (.term (some c.name) [l, r]) = match c.symbol? with
      | some symbol => style.node l ++ symbol ++ style.node r
      | none => c.name ++ TextStyle.parenthesized "," [style.node l, style.node r] := by
  have hgroup : TextStyle.groupSign? c.name = none := by
    cases c <;> decide
  have hsign : TextStyle.infixSign? c.name = c.symbol? := by
    simp [TextStyle.infixSign?]
  simp only [TextStyle.node, TextStyle.nodes, TextStyle.application, hgroup, hsign]
  cases c.symbol? with
  | none => rfl
  | some symbol => simp [TextStyle.comparison, hl, hr]

namespace Parser

open Shorthand TextStyle

/-- **All spellings of an operator mean the same**, in every context.  The text before the operands
is empty or ends in front of an argument, and the text after them is empty or ends one.  The left
operand is a word or a flat list with something in it, the right one may be empty, and if encoded
signs are operators there are none in them.  Then an operator between the operands and its prefix
form expand to the same text, which is the prefix form in its place, and a parser gives the same
tree or the same error for both.  So does the text that a comparison of these operands is written
as. -/
theorem spellings_agree (p : Parser) (hd : p.dialect.infixOperators)
    (front left right back : String) (hfront : Leads front.toList) (hback : Closes back.toList)
    (hleft : isLeftOperand left) (hright : isRightOperand right)
    (hencoded : p.dialect.encodedOperators →
      ¬ HasEncodedSign left.toList ∧ ¬ HasEncodedSign right.toList) :
    (∀ op name, p.dialect.Abbreviates op name →
      p.dialect.expand (front ++ (left ++ op ++ right) ++ back) =
        p.dialect.expand (front ++ (name ++ parenthesized "," [left, right]) ++ back) ∧
      p.dialect.expand (front ++ (name ++ parenthesized "," [left, right]) ++ back) =
        p.dialect.expand front ++ (name ++ parenthesized "," [left, right]) ++
          p.dialect.expand back ∧
      p.parse (front ++ (left ++ op ++ right) ++ back) =
        p.parse (front ++ (name ++ parenthesized "," [left, right]) ++ back)) ∧
    ∀ (style : TextStyle) (c : Comparison) (l r : Node), style.node l = left →
      style.node r = right →
      p.dialect.expand (front ++ style.node (.term (some c.name) [l, r]) ++ back) =
        p.dialect.expand front ++ (c.name ++ parenthesized "," [left, right]) ++
          p.dialect.expand back := by
  constructor
  · intro op name hop
    have hoperator := Dialect.expand_operator hd hfront hleft hright hencoded hback hop
    have happlied :=
      Dialect.expand_application hd hfront hleft hright hencoded hback hop.isNameChar.2
    have hexpand := hoperator.trans happlied.symm
    refine ⟨hexpand, happlied, ?_⟩
    rw [parse, parse, run, run, hexpand]
  · rintro style c l r rfl rfl
    rw [node_comparison style c hleft hright]
    cases hsymbol : c.symbol? with
    | some symbol =>
      exact Dialect.expand_operator hd hfront hleft hright hencoded hback
        (c.abbreviates hsymbol p.dialect)
    | none =>
      exact Dialect.expand_application hd hfront hleft hright hencoded hback
        c.isNameChar_name.2

/-- A comparison with a list, between a list in slashes and another comparison. -/
theorem spellings_agree_queries :
    queries.parse ("or(a/b," ++ ("x" ++ "%3C=" ++ "(1,2)") ++ ",c<3)") =
        queries.parse ("or(a/b," ++ ("le" ++ parenthesized "," ["x", "(1,2)"]) ++ ",c<3)") ∧
      queries.dialect.expand ("or(a/b," ++ ({} : TextStyle).node (.term (some "le")
        [.value (.string "x"), .list [.value (.number (.int 1)), .value (.number (.int 2))]]) ++
          ",c<3)") =
        queries.dialect.expand "or(a/b," ++ ("le" ++ parenthesized "," ["x", "(1,2)"]) ++
          queries.dialect.expand ",c<3)" := by
  have hfront : Leads "or(a/b,".toList := by simp [Leads, leadingSigns]
  have hback : Closes ",c<3)".toList := by simp [Closes, closingSigns]
  have hdecoded : ¬ HasEncodedSign "x".toList ∧ ¬ HasEncodedSign "(1,2)".toList := by
    simp [HasEncodedSign, List.infix_cons_iff]
  obtain ⟨hspellings, htexts⟩ := spellings_agree queries rfl "or(a/b," "x" "(1,2)" ",c<3)" hfront
    hback (by decide) (by decide) fun _ => hdecoded
  have hop : queries.dialect.Abbreviates "%3C=" "le" :=
    .encoded (c := .le) (by simp [encodedSigns]) rfl
  exact ⟨(hspellings "%3C=" "le" hop).2.2,
    htexts {} .le _ _ (by with_unfolding_all rfl) (by with_unfolding_all rfl)⟩

end Parser

end ResourceQuery
