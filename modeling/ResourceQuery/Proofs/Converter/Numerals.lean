import ResourceQuery.Converter.Basic
import ResourceQuery.Proofs.Number.ReadBack
import ResourceQuery.Proofs.Text.Percent

/-!
# Numerals and the numbers they become

A numeral is a decimal or a hexadecimal literal, and each form has its own reader.  The grammars of
both are given here as relations between a text and what it says, apart from the readers, which are
then shown to accept exactly these texts.

The two forms do not end alike.  Digits of a decimal literal that are too many for 64 bits still
give a double.  Those of a hexadecimal literal have to fit 63 bits before the sign is looked at, and
there is no double to fall back on: the least 64-bit integer has no hexadecimal numeral, and longer
ones are no numbers at all.

## Main definitions

* `Literal.DecimalText`, `Literal.HexText`: the grammars of the two forms
* `Literal.Parts.Denotes`: the number of a decimal literal

## Main results

* `Literal.parts?_eq_some_iff`, `Literal.hexParts?_eq_some_iff`: the readers accept the grammars
* `Converter.numeral_cases`: what the converters make of a numeral, and of any other text
-/

namespace ResourceQuery

namespace Literal

/-! ## Grammar -/

/-- An optional sign, and whether it is a minus. -/
inductive SignText : List Char → Bool → Prop
  | none : SignText [] false
  | plus : SignText ['+'] false
  | minus : SignText ['-'] true

/-- One or more decimal digits and the number they write. -/
structure DigitsText (digits : List Char) (n : ℕ) : Prop where
  ne_nil : digits ≠ []
  isDigit : ∀ c ∈ digits, c.isDigit
  value_eq : Nat.ofDigitChars 10 digits 0 = n

/-- An optional exponent: its mark, a sign and digits. -/
inductive ExponentText : List Char → Option ℤ → Prop
  | none : ExponentText [] none
  | some {mark : Char} {sign digits : List Char} {negative : Bool} {n : ℕ}
      (hmark : mark = 'e' ∨ mark = 'E') (hsign : SignText sign negative)
      (hdigits : DigitsText digits n) :
      ExponentText (mark :: (sign ++ digits)) (some (withSign negative n))

/-- The text of a decimal literal with the given parts.  Digits may be missing on one side of the
point only. -/
structure DecimalText (text : List Char) (p : Parts) : Prop where
  ne_nil : p.whole ≠ [] ∨ p.fraction.getD [] ≠ []
  whole_digits : ∀ c ∈ p.whole, c.isDigit
  fraction_digits : ∀ c ∈ p.fraction.getD [], c.isDigit
  text_eq : ∃ sign exponent, SignText sign p.negative ∧ ExponentText exponent p.exponent ∧
    text = sign ++ (p.whole ++ (p.fractionText ++ exponent))

/-- The text of a hexadecimal literal with the given sign and magnitude. -/
inductive HexText : List Char → Bool → ℕ → Prop
  | intro {mark : Char} {sign digits : List Char} {values : List ℕ} {negative : Bool}
      (hsign : SignText sign negative) (hmark : mark = 'x' ∨ mark = 'X') (hne : digits ≠ [])
      (hdigits : List.Forall₂ (fun c v => Percent.hexValue? c = some v) digits values) :
      HexText (sign ++ '0' :: mark :: digits) negative (Nat.ofDigits 16 values.reverse)

/-! ## Signs and digits -/

theorem signText_splitSign (cs : List Char) :
    ∃ sign, SignText sign (splitSign cs).1 ∧ cs = sign ++ (splitSign cs).2 := by
  unfold splitSign
  split
  · exact ⟨_, .minus, rfl⟩
  · exact ⟨_, .plus, rfl⟩
  · exact ⟨_, .none, rfl⟩

/-- A sign is split off, unless another one follows it. -/
theorem splitSign_append {sign : List Char} {negative : Bool} (h : SignText sign negative)
    {cs : List Char} (hcs : ∀ c ∈ cs.head?, c ≠ '-' ∧ c ≠ '+') :
    splitSign (sign ++ cs) = (negative, cs) := by
  cases h with
  | none =>
    rw [List.nil_append]
    unfold splitSign
    split
    · exact absurd rfl (hcs '-' (by simp)).1
    · exact absurd rfl (hcs '+' (by simp)).2
    · rfl
  | plus => rfl
  | minus => rfl

theorem ne_sign_of_isDigit {c : Char} (h : c.isDigit) : c ≠ '-' ∧ c ≠ '+' := by
  constructor
  all_goals
    rintro rfl
    exact absurd h (by decide)

theorem ne_sign_of_mem_head? {digits rest : List Char} (hdigits : ∀ c ∈ digits, c.isDigit)
    (hrest : ∀ c ∈ rest.head?, c ≠ '-' ∧ c ≠ '+') :
    ∀ c ∈ (digits ++ rest).head?, c ≠ '-' ∧ c ≠ '+' := by
  intro c hc
  cases digits with
  | nil => exact hrest c hc
  | cons d ds =>
    rw [List.cons_append, List.head?_cons, Option.mem_some_iff] at hc
    exact ne_sign_of_isDigit (hc ▸ hdigits d List.mem_cons_self)

theorem splitDigits_spec (cs : List Char) :
    cs = (splitDigits cs).1 ++ (splitDigits cs).2 ∧ ∀ c ∈ (splitDigits cs).1, c.isDigit := by
  unfold splitDigits
  rw [List.span_eq_takeWhile_dropWhile]
  exact ⟨List.takeWhile_append_dropWhile.symm, fun c hc =>
    List.all_eq_true.mp List.all_takeWhile c hc⟩

/-! ## Decimal literals -/

theorem exponent?_eq_some_iff {cs : List Char} {e : ℤ} :
    exponent? cs = some e ↔ ExponentText cs (some e) := by
  constructor
  · intro h
    unfold exponent? at h
    split at h
    · next mark rest =>
      obtain ⟨sign, hsign, hrest⟩ := signText_splitSign rest
      dsimp only at h
      split_ifs at h with hmark hdigits
      rw [Bool.or_eq_true, not_or] at hdigits
      cases h
      have hne : (splitSign rest).2 ≠ [] := by simpa using hdigits.1
      have hall : ∀ c ∈ (splitSign rest).2, c.isDigit := by simpa using hdigits.2
      nth_rewrite 1 [hrest]
      exact .some hmark hsign ⟨hne, hall, rfl⟩
    · cases h
  · rintro (_ | ⟨hmark, hsign, hdigits⟩)
    next mark sign digits negative n =>
    have hsplit : splitSign (sign ++ digits) = (negative, digits) :=
      splitSign_append hsign fun c hc =>
        ne_sign_of_isDigit (hdigits.isDigit c (List.mem_of_mem_head? hc))
    have hempty : digits.isEmpty = false := by simpa using hdigits.ne_nil
    have hall : digits.all Char.isDigit = true := List.all_eq_true.mpr hdigits.isDigit
    simp [exponent?, hmark, hsplit, hempty, hall, hdigits.value_eq, -List.all_eq_true]

/-- The exponent is all that the end of a literal adds to its parts. -/
theorem tail?_eq_some_iff {p q : Parts} {cs : List Char} (hp : p.exponent = none) :
    tail? p cs = some q ↔ ExponentText cs q.exponent ∧ q = { p with exponent := q.exponent } := by
  obtain ⟨negative, whole, fraction, exponent⟩ := p
  cases hp
  unfold tail?
  split
  · constructor
    · rintro h
      cases h
      exact ⟨.none, rfl⟩
    · rintro ⟨hexp, hq⟩
      cases he : q.exponent with
      | none => rw [hq, he]
      | some e => rw [he] at hexp; cases hexp
  · next hne =>
    rw [Option.map_eq_some_iff]
    constructor
    · rintro ⟨e, he, rfl⟩
      exact ⟨exponent?_eq_some_iff.mp he, rfl⟩
    · rintro ⟨hexp, hq⟩
      cases he : q.exponent with
      | none =>
        rw [he] at hexp
        cases hexp
        exact absurd rfl hne
      | some e =>
        rw [he] at hexp hq
        exact ⟨e, exponent?_eq_some_iff.mpr hexp, hq.symm⟩

theorem ExponentText.head?_eq {cs : List Char} {e : Option ℤ} (h : ExponentText cs e) :
    ∀ c ∈ cs.head?, c = 'e' ∨ c = 'E' := by
  intro c hc
  cases h with
  | none => cases hc
  | some hmark => exact Option.mem_some_iff.mp hc ▸ hmark

/-- Each reader takes off a front of what is left; put together again, the fronts are the text. -/
theorem decimalText_of_parts? {text : List Char} {p : Parts} (h : parts? text = some p) :
    DecimalText text p := by
  obtain ⟨sign, hsign, htext⟩ := signText_splitSign text
  unfold parts? at h
  generalize splitSign text = signed at h hsign htext
  obtain ⟨negative, cs⟩ := signed
  obtain ⟨hcs, hwhole⟩ := splitDigits_spec cs
  dsimp only at h
  generalize splitDigits cs = split at h hcs hwhole
  obtain ⟨whole, rest⟩ := split
  dsimp only at *
  subst htext hcs
  split at h
  · next rest =>
    obtain ⟨hrest, hfraction⟩ := splitDigits_spec rest
    generalize splitDigits rest = split at h hrest hfraction
    obtain ⟨fraction, exponent⟩ := split
    dsimp only at *
    subst hrest
    split_ifs at h with hne
    obtain ⟨hexp, hp⟩ := (tail?_eq_some_iff rfl).mp h
    rw [hp]
    refine ⟨?_, hwhole, hfraction, sign, _, hsign, hexp, ?_⟩
    · by_contra hnil
      push Not at hnil
      exact hne (by simpa using hnil)
    · simp [Parts.fractionText]
  · split_ifs at h with hne
    obtain ⟨hexp, hp⟩ := (tail?_eq_some_iff rfl).mp h
    rw [hp]
    refine ⟨.inl (by simpa using hne), hwhole, by simp, sign, _, hsign, hexp, ?_⟩
    simp [Parts.fractionText]

/-- The reader of decimal literals accepts every text of the grammar. -/
theorem DecimalText.parts?_eq_some {text : List Char} {p : Parts} (h : DecimalText text p) :
    parts? text = some p := by
  obtain ⟨hne, hwhole, hfraction, sign, exponent, hsign, hexp, rfl⟩ := h
  obtain ⟨negative, whole, fraction, e⟩ := p
  have hmark : ∀ c ∈ exponent.head?, ¬ c.isDigit ∧ c ≠ '-' ∧ c ≠ '+' ∧ c ≠ '.' := by
    intro c hc
    rcases hexp.head?_eq c hc with rfl | rfl <;> decide
  cases fraction with
  | none =>
    have hsplit : splitSign (sign ++ (whole ++ exponent)) = (negative, whole ++ exponent) :=
      splitSign_append hsign (ne_sign_of_mem_head? hwhole fun c hc =>
        ⟨(hmark c hc).2.1, (hmark c hc).2.2.1⟩)
    simp only [parts?, Parts.fractionText, List.nil_append, hsplit,
      splitDigits_append hwhole fun c hc => (hmark c hc).1]
    split
    · exact absurd rfl (hmark '.' (by simp)).2.2.2
    · have hwhole : whole ≠ [] := by simpa using hne
      rw [if_neg (by simpa using hwhole)]
      exact (tail?_eq_some_iff rfl).mpr ⟨hexp, rfl⟩
  | some fraction =>
    have hsplit : splitSign (sign ++ (whole ++ '.' :: (fraction ++ exponent))) =
        (negative, whole ++ '.' :: (fraction ++ exponent)) :=
      splitSign_append hsign (ne_sign_of_mem_head? hwhole (by simp))
    have hbefore : splitDigits (whole ++ '.' :: (fraction ++ exponent)) =
        (whole, '.' :: (fraction ++ exponent)) :=
      splitDigits_append hwhole (by simp)
    have hafter : splitDigits (fraction ++ exponent) = (fraction, exponent) :=
      splitDigits_append hfraction fun c hc => (hmark c hc).1
    simp only [parts?, Parts.fractionText, List.cons_append, hsplit, hbefore, hafter]
    rw [if_neg]
    · exact (tail?_eq_some_iff rfl).mpr ⟨hexp, rfl⟩
    · rw [Bool.and_eq_true, List.isEmpty_iff, List.isEmpty_iff, not_and_or]
      exact hne

/-- **The reader takes apart the texts of decimal literals, and no other ones.** -/
theorem parts?_eq_some_iff {text : List Char} {p : Parts} :
    parts? text = some p ↔ DecimalText text p :=
  ⟨decimalText_of_parts?, DecimalText.parts?_eq_some⟩

/-! ## Hexadecimal literals -/

theorem foldl_hexDigits_eq_some_iff (digits : List Char) (acc : Option ℕ) {n : ℕ} :
    digits.foldl (fun acc c => acc.bind fun n => (Percent.hexValue? c).map (16 * n + ·)) acc =
        some n ↔
      ∃ start values, acc = some start ∧
        List.Forall₂ (fun c v => Percent.hexValue? c = some v) digits values ∧
        values.foldl (fun n v => v + 16 * n) start = n := by
  induction digits generalizing acc with
  | nil => simp
  | cons c cs ih =>
    rw [List.foldl_cons, ih]
    constructor
    · rintro ⟨start, values, hstart, hcs, rfl⟩
      obtain ⟨first, rfl, hfirst⟩ := Option.bind_eq_some_iff.mp hstart
      obtain ⟨v, hv, rfl⟩ := Option.map_eq_some_iff.mp hfirst
      exact ⟨first, v :: values, rfl, .cons hv hcs, by rw [List.foldl_cons, Nat.add_comm]⟩
    · rintro ⟨start, values, rfl, hdigits, rfl⟩
      obtain _ | ⟨hv, hcs⟩ := hdigits
      next v values =>
      exact ⟨16 * start + v, values, by simp [hv], hcs, by rw [List.foldl_cons, Nat.add_comm]⟩

/-- The number of hexadecimal digits is the sum of their values by place. -/
theorem hexNat?_eq_some_iff {digits : List Char} {n : ℕ} :
    hexNat? digits = some n ↔
      ∃ values, List.Forall₂ (fun c v => Percent.hexValue? c = some v) digits values ∧
        Nat.ofDigits 16 values.reverse = n := by
  rw [hexNat?, foldl_hexDigits_eq_some_iff]
  simp [Nat.ofDigits_eq_foldr]

/-- **The reader accepts the texts of hexadecimal literals, and no other ones.** -/
theorem hexParts?_eq_some_iff {text : List Char} {negative : Bool} {n : ℕ} :
    hexParts? text = some (negative, n) ↔ HexText text negative n := by
  constructor
  · intro h
    obtain ⟨sign, hsign, htext⟩ := signText_splitSign text
    unfold hexParts? at h
    generalize splitSign text = signed at h hsign htext
    obtain ⟨_, cs⟩ := signed
    dsimp only at *
    subst htext
    split at h
    · next mark digits =>
      split_ifs at h with hmark
      obtain ⟨m, hm, heq⟩ := Option.map_eq_some_iff.mp h
      obtain ⟨rfl, rfl⟩ := Prod.mk.inj heq
      obtain ⟨values, hvalues, rfl⟩ := hexNat?_eq_some_iff.mp hm
      exact .intro hsign hmark.1 hmark.2 hvalues
    · cases h
  · rintro ⟨hsign, hmark, hne, hdigits⟩
    next mark sign digits values =>
    have hsplit : splitSign (sign ++ '0' :: mark :: digits) = (negative, '0' :: mark :: digits) :=
      splitSign_append hsign (by simp)
    have hnat := hexNat?_eq_some_iff.mpr ⟨values, hdigits, rfl⟩
    simp [hexParts?, hsplit, hmark, hne, hnat]

/-- No numeral is both decimal and hexadecimal. -/
theorem HexText.parts?_eq_none {text : List Char} {negative : Bool} {n : ℕ}
    (h : HexText text negative n) : parts? text = none := by
  obtain ⟨hsign, hmark, -, -⟩ := h
  next mark sign digits values =>
  have hsplit : splitSign (sign ++ '0' :: mark :: digits) = (negative, '0' :: mark :: digits) :=
    splitSign_append hsign (by simp)
  have hzero : splitDigits (['0'] ++ mark :: digits) = (['0'], mark :: digits) := by
    refine splitDigits_append (by simp) fun c hc => ?_
    rw [List.head?_cons, Option.mem_some_iff] at hc
    rcases hmark with rfl | rfl <;> exact hc ▸ by decide
  rw [List.singleton_append] at hzero
  rcases hmark with rfl | rfl <;> simp [parts?, hsplit, hzero, tail?, exponent?]

/-! ## Numbers -/

namespace Parts

/-- The value of a literal without fraction and exponent. -/
def integer (p : Parts) : ℤ := withSign p.negative (Nat.ofDigitChars 10 p.whole 0)

/-- The literal is an integer of 64 bits. -/
def IsInt64 (p : Parts) : Prop :=
  p.fraction = none ∧ p.exponent = none ∧ -(2 ^ 63) ≤ p.integer ∧ p.integer < 2 ^ 63

/-- The number of a decimal literal: the integer it writes, if it is one of 64 bits, and otherwise
the double nearest to its value. -/
def Denotes (p : Parts) : Number → Prop
  | .int i => p.IsInt64 ∧ i.toInt = p.integer
  | .float x => ¬ p.IsInt64 ∧ x = Binary64.ofMagnitude p.negative (Binary64.roundRat p.value)

theorem denotes_toNumber (p : Parts) : p.Denotes p.toNumber := by
  unfold toNumber
  split
  · next hfraction hexponent =>
    split
    · next i hi =>
      have hvalue : i.toInt = p.integer := toInt_of_int64?_eq_some hi
      have hlower := i.le_toInt
      have hupper := i.toInt_lt
      exact ⟨⟨hfraction, hexponent, by omega, by omega⟩, hvalue⟩
    · next hnone =>
      refine ⟨?_, p.toBinary64_eq⟩
      rintro ⟨-, -, hrange⟩
      rw [integer] at hrange
      rw [int64?_eq_some hrange] at hnone
      cases hnone
  · next hparts => exact ⟨fun h => hparts h.1 h.2.1, p.toBinary64_eq⟩

end Parts

theorem number?_of_decimalText {text : List Char} {p : Parts} (h : DecimalText text p) :
    number? text = some p.toNumber := by
  have hparts := parts?_eq_some_iff.mpr h
  have hhex : hexParts? text = none := by
    by_contra hne
    obtain ⟨⟨negative, n⟩, hsome⟩ := Option.ne_none_iff_exists'.mp hne
    rw [(hexParts?_eq_some_iff.mp hsome).parts?_eq_none] at hparts
    cases hparts
  rw [number?, hexadecimal?, hhex, decimal?, hparts]
  rfl

/-- A hexadecimal literal is read as an integer if its digits alone, without the sign, are in
range. -/
theorem number?_of_hexText {text : List Char} {negative : Bool} {n : ℕ}
    (h : HexText text negative n) :
    number? text =
      if n < 2 ^ 63 then some (.int (Int64.ofInt (withSign negative n))) else none := by
  rw [number?, hexadecimal?, hexParts?_eq_some_iff.mpr h, decimal?, h.parts?_eq_none]
  dsimp only [Nat.pow_eq]
  split_ifs <;> rfl

theorem number?_eq_none {text : List Char} (hdecimal : ∀ p, ¬ DecimalText text p)
    (hhex : ∀ negative n, ¬ HexText text negative n) : number? text = none := by
  have hparts : parts? text = none := by
    by_contra hne
    obtain ⟨p, hsome⟩ := Option.ne_none_iff_exists'.mp hne
    exact hdecimal p (parts?_eq_some_iff.mp hsome)
  have hhexParts : hexParts? text = none := by
    by_contra hne
    obtain ⟨⟨negative, n⟩, hsome⟩ := Option.ne_none_iff_exists'.mp hne
    exact hhex negative n (hexParts?_eq_some_iff.mp hsome)
  rw [number?, hexadecimal?, hhexParts, decimal?, hparts]
  rfl

theorem toInt_ofInt_withSign (negative : Bool) {n : ℕ} (h : n < 2 ^ 63) :
    (Int64.ofInt (withSign negative n)).toInt = withSign negative n := by
  refine Int64.toInt_ofInt_of_le ?_ ?_
  all_goals
    unfold withSign
    split <;> omega

end Literal

/-! ## Converters -/

namespace Converter

open Literal

/-- A text that is read as a numeral. -/
def isNumeral (text : List Char) : Bool := (hexParts? text).isSome || (parts? text).isSome

theorem ne_of_isNumeral_eq_false {s word : String} (h : isNumeral s.toList)
    (hword : isNumeral word.toList = false) : s ≠ word := by
  rintro rfl
  rw [h] at hword
  cases hword

/-- No quotes are taken off a numeral, and it is no reserved word. -/
theorem literal_of_isNumeral {s : String} (h : isNumeral s.toList) :
    literal s = ((number? s.toList).map Value.number).getD (.string s) := by
  have hquote : unquote s = s := by
    unfold unquote
    split
    · next rest heq =>
      rw [heq] at h
      exact absurd h (by simp [isNumeral, hexParts?, parts?, splitSign, splitDigits, List.span,
        List.span.loop])
    · rfl
  have hreserved : reserved.lookup s = none := by
    have hall : ∀ e ∈ reserved, isNumeral e.1.toList = false := by decide
    rw [List.lookup_eq_none_iff]
    intro e he
    rw [bne_iff_ne]
    exact ne_of_isNumeral_eq_false h (hall e he)
  simp only [literal, hquote, hreserved]
  cases number? s.toList <;> rfl

/-- The default converter tries a numeral as a number and leaves it a string otherwise. -/
theorem auto_of_isNumeral {s : String} (hs : Percent.decode s = s) (h : isNumeral s.toList) :
    auto s = .ok (((number? s.toList).map Value.number).getD (.string s)) := by
  rw [auto, hs, literal_of_isNumeral h]

/-- The converter for numbers refuses a numeral that is no number. -/
theorem number_of_isNumeral {s : String} (hs : Percent.decode s = s) (h : isNumeral s.toList) :
    number s = ((number? s.toList).map fun n => .ok (.number n)).getD
      (.error (.invalidValue "number" s)) := by
  have hpos : s ≠ "Infinity" := ne_of_isNumeral_eq_false h (by decide)
  have hneg : s ≠ "-Infinity" := ne_of_isNumeral_eq_false h (by decide)
  simp only [number, hs, hpos, hneg, if_false]
  cases number? s.toList <;> rfl

/-- **What becomes of numerals and of other texts.**  A decimal literal is a number to both
converters, and the same one: the integer it writes if that has 64 bits, and otherwise the nearest
double.  A hexadecimal literal is an integer to both if its digits alone are below `2 ^ 63`; if not,
it is a text to the one and no number to the other, though the decimal literal of the same value is
a number.  Apart from the two infinities no other text is a number. -/
theorem numeral_cases {s : String} (hs : Percent.decode s = s) :
    (∀ p, DecimalText s.toList p →
      ∃ n, p.Denotes n ∧ auto s = .ok (.number n) ∧ number s = .ok (.number n)) ∧
    (∀ negative m, HexText s.toList negative m → m < 2 ^ 63 →
      ∃ i : Int64, i.toInt = withSign negative m ∧
        auto s = .ok (.number (.int i)) ∧ number s = .ok (.number (.int i))) ∧
    (∀ negative m, HexText s.toList negative m → 2 ^ 63 ≤ m →
      auto s = .ok (.string s) ∧ number s = .error (.invalidValue "number" s)) ∧
    ((∀ p, ¬ DecimalText s.toList p) → (∀ negative m, ¬ HexText s.toList negative m) →
      s ≠ "Infinity" → s ≠ "-Infinity" → number s = .error (.invalidValue "number" s)) ∧
    (s = "Infinity" → number s = .ok (.number (.float (Binary64.infinity false)))) ∧
    (s = "-Infinity" → number s = .ok (.number (.float (Binary64.infinity true)))) := by
  have hdecimal : ∀ {p}, DecimalText s.toList p → isNumeral s.toList := fun h => by
    simp [isNumeral, parts?_eq_some_iff.mpr h]
  have hhex : ∀ {negative m}, HexText s.toList negative m → isNumeral s.toList := fun h => by
    simp [isNumeral, hexParts?_eq_some_iff.mpr h]
  refine ⟨fun p h => ?_, fun negative m h hm => ?_, fun negative m h hm => ?_,
    fun hd hh hpos hneg => ?_, ?_, ?_⟩
  · refine ⟨p.toNumber, p.denotes_toNumber, ?_⟩
    rw [auto_of_isNumeral hs (hdecimal h), number_of_isNumeral hs (hdecimal h),
      number?_of_decimalText h]
    exact ⟨rfl, rfl⟩
  · refine ⟨_, toInt_ofInt_withSign negative hm, ?_⟩
    rw [auto_of_isNumeral hs (hhex h), number_of_isNumeral hs (hhex h), number?_of_hexText h,
      if_pos hm]
    exact ⟨rfl, rfl⟩
  · rw [auto_of_isNumeral hs (hhex h), number_of_isNumeral hs (hhex h), number?_of_hexText h,
      if_neg (by omega)]
    exact ⟨rfl, rfl⟩
  · simp only [number, hs, hpos, hneg, number?_eq_none hd hh, if_false]
  · rintro rfl
    simp [number, hs]
  · rintro rfl
    simp [number, hs]

/-- The least integer, in hexadecimal. -/
theorem numeral_cases_least :
    HexText "-0x8000000000000000".toList true (2 ^ 63) ∧
      auto "-0x8000000000000000" = .ok (.string "-0x8000000000000000") ∧
      number "-0x8000000000000000" = .error (.invalidValue "number" "-0x8000000000000000") := by
  have hdecode : Percent.decode "-0x8000000000000000" = "-0x8000000000000000" :=
    Percent.decode_eq_self (by decide)
  have hhex : HexText "-0x8000000000000000".toList true (2 ^ 63) :=
    hexParts?_eq_some_iff.mp (by decide)
  exact ⟨hhex, (numeral_cases hdecode).2.2.1 true _ hhex le_rfl⟩

end Converter

end ResourceQuery
