import Mathlib.Data.List.TakeDrop
import ResourceQuery.Number.Literal
import ResourceQuery.Proofs.Number.Rounding

/-!
# Numbers read back

A number is written as a decimal literal, and reading that literal gives an equal number: the
same integer, or the same double.  A double without a fraction may come back as an integer,
which is equal to it by value.

The texts are compared through their parts.  `Literal.Parts.text` writes a literal, reading it
gives the parts back, and every layout of a number is the text of some parts.

## Main definitions

* `Decimal.value`: the rational number a decimal denotes
* `Literal.Parts.text`, `Literal.Parts.value`: the literal with given parts, and its value
* `Literal.Writes`: a text is that of a literal with a sign and an absolute value
* `Text.isDecimalChar`: the characters of decimal literals

## Main results

* `Decimal.round_shortest`: the shortest decimal of a double rounds to that double
* `Literal.number?_text`: a written literal is read as the number of its parts
* `NumberLayout.render_inj`: the text of a finite double determines it
* `Number.number?_canonical`: the canonical text of a finite number denotes an equal number
-/

namespace ResourceQuery

/-! ## Shortest decimals -/

namespace Decimal

theorem isDigit_toDigits (n : ℕ) : ∀ c ∈ Nat.toDigits 10 n, c.isDigit := fun _ hc =>
  Nat.isDigit_of_mem_toDigits (by norm_num) (by norm_num) hc

/-- The rational number a decimal denotes. -/
def value (d : Decimal) : ℚ := d.digits * 10 ^ d.exponent

/-- A decimal reads back if it rounds to the double. -/
theorem readsBack_iff (x : Binary64) (d : Decimal) :
    readsBack x d = true ↔ Binary64.ofMagnitude x.negative (Binary64.roundRat d.value) = x := by
  simp [readsBack, Binary64.ofDecimal_eq, value]

theorem value_exact (x : Binary64) : (exact x).value = x.value := by
  unfold exact value Binary64.value
  split
  · next he =>
    obtain ⟨n, hn⟩ := Int.eq_ofNat_of_zero_le he
    simp [hn]
  · next he =>
    obtain ⟨n, hn⟩ := Int.eq_ofNat_of_zero_le (by omega : 0 ≤ -x.exponent)
    obtain hn : x.exponent = -(n : ℤ) := by omega
    simp only [hn, neg_neg, Int.toNat_natCast, zpow_neg, zpow_natCast, Nat.cast_mul, Nat.pow_eq,
      Nat.cast_pow, Nat.cast_ofNat]
    rw [show (10 : ℚ) = 5 * 2 by norm_num, mul_pow]
    field_simp

theorem value_dropZeros (steps : ℕ) (d : Decimal) : (dropZeros steps d).value = d.value := by
  induction steps generalizing d with
  | zero => rfl
  | succ steps ih =>
    rw [dropZeros]
    split
    · next h =>
      have hdigits : (d.digits : ℚ) = 10 * (d.digits / 10 : ℕ) := by
        exact_mod_cast (Nat.mul_div_cancel' (Nat.dvd_of_mod_eq_zero h.1)).symm
      rw [ih, value, value, hdigits, zpow_add_one₀ (by norm_num)]
      ring
    · rfl

/-- A decimal that is taken from a grid reads back: if both neighbours do, either will do. -/
theorem readsBack_onGrid {tie : Tie} {x : Binary64} {k : ℤ} {d : Decimal}
    (h : onGrid tie x k = some d) : readsBack x d = true := by
  unfold onGrid at h
  dsimp only at h
  split at h
  · cases h
  · next hbelow _ => cases h; exact hbelow
  · next _ habove => cases h; exact habove
  · next hbelow habove =>
    cases tie <;> dsimp only at h <;> split_ifs at h <;> cases h <;> assumption

theorem readsBack_onGrids {tie : Tie} {x : Binary64} {steps : ℕ} {k : ℤ} {d : Decimal}
    (h : onGrids tie x steps k = some d) : readsBack x d = true := by
  induction steps generalizing k with
  | zero => cases h
  | succ steps ih =>
    rw [onGrids] at h
    split at h
    · next hgrid => cases h; exact readsBack_onGrid hgrid
    · exact ih h

/-- **The shortest decimal of a double rounds to that double**, whichever grid it was found on.  If
no grid was fine enough, the exact expansion is written out. -/
theorem round_shortest (tie : Tie) {x : Binary64} (h : x.isFinite) :
    Binary64.ofMagnitude x.negative (Binary64.roundRat (shortest tie x).value) = x := by
  unfold shortest
  split
  · next hzero =>
    have hmag : x.magnitude = 0 := by simpa [Binary64.isZero] using hzero
    have := Binary64.ofMagnitude_roundRat_value h
    rw [Binary64.roundRat_value, hmag] at this
    simpa [value, Binary64.roundRat] using this
  · rw [value_dropZeros]
    cases hgrid : onGrids tie x 24 (coarsestGrid x) with
    | some d => exact (readsBack_iff x d).mp (readsBack_onGrids hgrid)
    | none =>
      rw [Option.getD_none, value_exact]
      exact Binary64.ofMagnitude_roundRat_value h

end Decimal

/-! ## Decimal literals -/

/-- The characters of decimal literals. -/
def Text.isDecimalChar (c : Char) : Bool :=
  c.isDigit || ['.', 'e', '+', '-'].contains c

namespace Literal

namespace Parts

/-- The point and the digits after it. -/
def fractionText (p : Parts) : List Char :=
  match p.fraction with
  | some digits => '.' :: digits
  | none => []

/-- The exponent with its mark. -/
def exponentText (p : Parts) : List Char :=
  match p.exponent with
  | some e => 'e' :: Decimal.exponentText e
  | none => []

/-- The literal without its sign. -/
def unsignedText (p : Parts) : List Char := p.whole ++ (p.fractionText ++ p.exponentText)

/-- The literal with given parts. -/
def text (p : Parts) : List Char :=
  if p.negative then '-' :: p.unsignedText else p.unsignedText

/-- The parts of a literal that has digits before its point. -/
structure IsLiteral (p : Parts) : Prop where
  whole_ne_nil : p.whole ≠ []
  whole_digits : ∀ c ∈ p.whole, c.isDigit
  fraction_digits : ∀ c ∈ p.fraction.getD [], c.isDigit

/-- The absolute value of the literal. -/
def value (p : Parts) : ℚ :=
  Nat.ofDigitChars 10 (p.whole ++ p.fraction.getD []) 0 *
    10 ^ (p.exponent.getD 0 - (p.fraction.getD []).length)

theorem toBinary64_eq (p : Parts) :
    p.toBinary64 = Binary64.ofMagnitude p.negative (Binary64.roundRat p.value) :=
  Binary64.ofDecimal_eq _ _ _

end Parts

/-- The text is that of a literal with the given sign and absolute value, apart from the sign. -/
def Writes (negative : Bool) (text : List Char) (value : ℚ) : Prop :=
  ∃ p : Parts, p.IsLiteral ∧ p.negative = negative ∧ p.unsignedText = text ∧ p.value = value

theorem writes_whole (negative : Bool) {whole : List Char} (hne : whole ≠ [])
    (hwhole : ∀ c ∈ whole, c.isDigit) :
    Writes negative whole (Nat.ofDigitChars 10 whole 0) := by
  refine ⟨⟨negative, whole, none, none⟩, ⟨hne, hwhole, by simp⟩, rfl, ?_, ?_⟩
  · simp [Parts.unsignedText, Parts.fractionText, Parts.exponentText]
  · simp [Parts.value]

/-- Digits with a point among them write a fraction. -/
theorem writes_fraction (negative : Bool) {whole fraction : List Char} (hne : whole ≠ [])
    (hwhole : ∀ c ∈ whole, c.isDigit) (hfraction : ∀ c ∈ fraction, c.isDigit) :
    Writes negative (whole ++ '.' :: fraction)
      (Nat.ofDigitChars 10 (whole ++ fraction) 0 * 10 ^ (-(fraction.length : ℤ))) := by
  refine ⟨⟨negative, whole, some fraction, none⟩, ⟨hne, hwhole, hfraction⟩, rfl, ?_, ?_⟩
  · simp [Parts.unsignedText, Parts.fractionText, Parts.exponentText]
  · simp [Parts.value]

theorem isDecimalChar_of_isDigit {c : Char} (h : c.isDigit) : Text.isDecimalChar c := by
  simp [Text.isDecimalChar, h]

theorem isDecimalChar_exponentText (e : ℤ) :
    ∀ c ∈ Decimal.exponentText e, Text.isDecimalChar c := by
  intro c hc
  simp only [Decimal.exponentText, List.mem_cons] at hc
  rcases hc with rfl | hc
  · split <;> decide
  · exact isDecimalChar_of_isDigit (Decimal.isDigit_toDigits _ c hc)

theorem isDecimalChar_unsignedText {p : Parts} (h : p.IsLiteral) :
    ∀ c ∈ p.unsignedText, Text.isDecimalChar c := by
  intro c hc
  simp only [Parts.unsignedText, List.mem_append] at hc
  rcases hc with hc | hc | hc
  · exact isDecimalChar_of_isDigit (h.whole_digits c hc)
  · have hdigits := h.fraction_digits
    unfold Parts.fractionText at hc
    split at hc
    · next digits hfraction =>
      rw [hfraction] at hdigits
      rcases List.mem_cons.mp hc with rfl | hc
      · decide
      · exact isDecimalChar_of_isDigit (hdigits c hc)
    · cases hc
  · unfold Parts.exponentText at hc
    split at hc
    · rcases List.mem_cons.mp hc with rfl | hc
      · decide
      · exact isDecimalChar_exponentText _ c hc
    · cases hc

theorem isDecimalChar_text {p : Parts} (h : p.IsLiteral) : ∀ c ∈ p.text, Text.isDecimalChar c := by
  intro c hc
  unfold Parts.text at hc
  split at hc
  · rcases List.mem_cons.mp hc with rfl | hc
    · decide
    · exact isDecimalChar_unsignedText h c hc
  · exact isDecimalChar_unsignedText h c hc

theorem text_ne_nil {p : Parts} (h : p.IsLiteral) : p.text ≠ [] := by
  unfold Parts.text Parts.unsignedText
  split
  · exact List.cons_ne_nil _ _
  · exact List.append_ne_nil_of_left_ne_nil h.whole_ne_nil _

theorem splitSign_of_isDigit {c : Char} (cs : List Char) (h : c.isDigit) :
    splitSign (c :: cs) = (false, c :: cs) := by
  unfold splitSign
  split
  · next heq => cases heq; exact absurd h (by decide)
  · next heq => cases heq; exact absurd h (by decide)
  · rfl

theorem splitSign_text {p : Parts} (h : p.IsLiteral) :
    splitSign p.text = (p.negative, p.unsignedText) := by
  unfold Parts.text
  cases p.negative with
  | true => rfl
  | false =>
    obtain ⟨c, cs, hwhole⟩ := List.exists_cons_of_ne_nil h.whole_ne_nil
    have hc : c.isDigit := h.whole_digits c (by simp [hwhole])
    simp only [Parts.unsignedText, hwhole, List.cons_append]
    exact splitSign_of_isDigit _ hc

/-- Digits are split off a text that goes on with something else. -/
theorem splitDigits_append {digits rest : List Char} (hdigits : ∀ c ∈ digits, c.isDigit)
    (hrest : ∀ c ∈ rest.head?, ¬ c.isDigit) : splitDigits (digits ++ rest) = (digits, rest) := by
  unfold splitDigits
  rw [List.span_eq_takeWhile_dropWhile, List.takeWhile_append_of_pos hdigits,
    List.dropWhile_append_of_pos hdigits]
  cases rest with
  | nil => simp
  | cons c cs => simp [hrest c (by simp)]

theorem withSign_natAbs (e : ℤ) : withSign (decide (e < 0)) e.natAbs = e := by
  rcases lt_or_ge e 0 with h | h
  · simp only [withSign, h, decide_true, if_true]
    omega
  · simp only [withSign, not_lt.mpr h, decide_false, Bool.false_eq_true, if_false]
    omega

theorem all_isDigit_toDigits (n : ℕ) : (Nat.toDigits 10 n).all Char.isDigit = true :=
  List.all_eq_true.mpr (Decimal.isDigit_toDigits n)

theorem exponent?_exponentText (e : ℤ) :
    exponent? ('e' :: Decimal.exponentText e) = some e := by
  have hsign : splitSign (Decimal.exponentText e) = (decide (e < 0), Nat.toDigits 10 e.natAbs) := by
    unfold Decimal.exponentText
    split <;> simp_all [splitSign]
  simp [exponent?, hsign, all_isDigit_toDigits, withSign_natAbs, Nat.toDigits_ne_nil,
    -List.all_eq_true]

/-- What follows the digits is read back as the exponent. -/
theorem tail?_exponentText (p : Parts) :
    tail? { p with exponent := none } p.exponentText = some p := by
  unfold Parts.exponentText
  split
  · next e he =>
    rw [tail?, exponent?_exponentText]
    · rw [Option.map_some, ← he]
    · simp
  · next he => rw [tail?, ← he]

/-- A written literal is taken apart again. -/
theorem parts?_text {p : Parts} (h : p.IsLiteral) : parts? p.text = some p := by
  have hwhole := h.whole_ne_nil
  have hexp : ∀ c ∈ p.exponentText.head?, ¬ c.isDigit := by
    unfold Parts.exponentText
    split <;> simp
  unfold parts?
  rw [splitSign_text h]
  dsimp only
  cases hf : p.fraction with
  | none =>
    rw [Parts.unsignedText, Parts.fractionText, hf, List.nil_append,
      splitDigits_append h.whole_digits hexp]
    have htail : tail? ⟨p.negative, p.whole, none, none⟩ p.exponentText = some p := by
      rw [← hf]; exact tail?_exponentText p
    dsimp only
    split
    · -- An exponent has no point in front, so it is not taken for a fraction.
      next rest heq =>
      have : p.exponentText.head? = some '.' := by rw [heq]; rfl
      unfold Parts.exponentText at this
      split at this <;> simp at this
    · simpa [hwhole] using htail
  | some digits =>
    have hdigits : ∀ c ∈ digits, c.isDigit := by simpa [hf] using h.fraction_digits
    have htail : tail? ⟨p.negative, p.whole, some digits, none⟩ p.exponentText = some p := by
      rw [← hf]; exact tail?_exponentText p
    rw [Parts.unsignedText, Parts.fractionText, hf,
      splitDigits_append h.whole_digits (by simp)]
    simp only [List.cons_append]
    rw [splitDigits_append hdigits hexp]
    simpa [hwhole] using htail

/-- A literal is written in one way only. -/
theorem text_inj {p q : Parts} (hp : p.IsLiteral) (hq : q.IsLiteral) (h : p.text = q.text) :
    p = q := by
  have hparts := parts?_text hp
  rw [h, parts?_text hq] at hparts
  exact (Option.some.inj hparts).symm

/-- Nothing but decimal digits, points, marks and signs: no hexadecimal literal.  The mark `x` is
none of their characters. -/
theorem hexadecimal?_eq_none {text : List Char} (h : ∀ c ∈ text, Text.isDecimalChar c) :
    hexadecimal? text = none := by
  have hmem : ∀ c ∈ (splitSign text).2, Text.isDecimalChar c := by
    intro c hc
    unfold splitSign at hc
    split at hc
    · exact h c (List.mem_cons_of_mem _ hc)
    · exact h c (List.mem_cons_of_mem _ hc)
    · exact h c hc
  have hnone : hexParts? text = none := by
    unfold hexParts?
    dsimp only
    split
    · next x digits heq =>
      have hx : Text.isDecimalChar x := hmem x (by rw [heq]; simp)
      rw [if_neg]
      rintro ⟨rfl | rfl, -⟩ <;> exact absurd hx (by decide)
    · rfl
  rw [hexadecimal?, hnone]

/-- **A written literal is read as the number of its parts.** -/
theorem number?_text {p : Parts} (h : p.IsLiteral) : number? p.text = some p.toNumber := by
  rw [number?, hexadecimal?_eq_none (isDecimalChar_text h), decimal?, parts?_text h]
  rfl

end Literal

/-! ## Layouts -/

namespace Decimal

theorem isDigit_replicate_zero (n : ℕ) : ∀ c ∈ List.replicate n '0', c.isDigit := by
  intro c hc
  rw [List.eq_of_mem_replicate hc]
  rfl

/-- Positional notation is a literal without an exponent.  The point stands among the digits, or in
front of zeros that fill up the places. -/
theorem writes_positional (negative : Bool) (d : Decimal) :
    Literal.Writes negative d.positional d.value := by
  have hdigits := isDigit_toDigits d.digits
  have hne : Nat.toDigits 10 d.digits ≠ [] := Nat.toDigits_ne_nil
  unfold positional value
  dsimp only
  split
  · next he =>
    obtain ⟨n, hn⟩ := Int.eq_ofNat_of_zero_le he
    have hwhole := Literal.writes_whole negative (List.append_ne_nil_of_left_ne_nil hne _)
      (List.forall_mem_append.mpr ⟨hdigits, isDigit_replicate_zero d.exponent.toNat⟩)
    simpa [Nat.ofDigitChars_append, hn, mul_comm] using hwhole
  next he =>
  obtain ⟨n, hn⟩ := Int.eq_ofNat_of_zero_le (by omega : 0 ≤ -d.exponent)
  obtain hexp : d.exponent = -(n : ℤ) := by omega
  simp only [hexp, neg_neg, Int.toNat_natCast]
  split
  · next hlt =>
    set k := (Nat.toDigits 10 d.digits).length - n with hk
    have hlen : (Nat.toDigits 10 d.digits).length - k = n := by omega
    have hfront : (Nat.toDigits 10 d.digits).take k ≠ [] := by
      simp only [ne_eq, List.take_eq_nil_iff, hne, or_false]
      omega
    have hback : ∀ c ∈ (Nat.toDigits 10 d.digits).drop k, c.isDigit := fun c hc =>
      hdigits c (List.mem_of_mem_drop hc)
    have hfraction := Literal.writes_fraction negative hfront
      (fun c hc => hdigits c (List.mem_of_mem_take hc)) hback
    simpa [hlen] using hfraction
  · next hle =>
    have hlen : n - (Nat.toDigits 10 d.digits).length + (Nat.toDigits 10 d.digits).length = n := by
      omega
    have hfraction := Literal.writes_fraction negative (List.cons_ne_nil '0' []) (by simp)
      (List.forall_mem_append.mpr
        ⟨isDigit_replicate_zero (n - (Nat.toDigits 10 d.digits).length), hdigits⟩)
    simpa [Nat.ofDigitChars_append, Nat.ofDigitChars_cons, Nat.ofDigitChars_replicate_zero,
      hlen] using hfraction

/-- A whole number may be written with a fraction of one zero. -/
theorem writes_pointed (negative : Bool) {d : Decimal} (h : 0 ≤ d.exponent) :
    Literal.Writes negative (d.positional ++ ['.', '0']) d.value := by
  obtain ⟨n, hn⟩ := Int.eq_ofNat_of_zero_le h
  have hfraction := Literal.writes_fraction negative
    (List.append_ne_nil_of_left_ne_nil (Nat.toDigits_ne_nil (b := 10) (n := d.digits)) _)
    (List.forall_mem_append.mpr ⟨isDigit_toDigits d.digits, isDigit_replicate_zero n⟩)
    (isDigit_replicate_zero 1)
  have htenth : (10 : ℚ) * (d.digits * 10 ^ n) * 10⁻¹ = d.digits * 10 ^ n := by ring
  simpa [positional, value, hn, Nat.ofDigitChars_append, Nat.ofDigitChars_cons, mul_comm, htenth]
    using hfraction

/-- Scientific notation is a literal with an exponent. -/
theorem writes_scientific (negative : Bool) (d : Decimal) :
    Literal.Writes negative d.scientific d.value := by
  have hdigits := isDigit_toDigits d.digits
  have hvalue : Nat.ofDigitChars 10 (Nat.toDigits 10 d.digits) 0 = d.digits :=
    Nat.ofDigitChars_ten_toDigits
  unfold scientific leadExponent value
  split
  · next h => exact absurd h Nat.toDigits_ne_nil
  · next c h =>
    rw [h] at hdigits hvalue
    refine ⟨⟨negative, [c], none, some (d.exponent + [c].length - 1)⟩, ⟨by simp, hdigits, by simp⟩,
      rfl, ?_, ?_⟩
    · simp [Literal.Parts.unsignedText, Literal.Parts.fractionText, Literal.Parts.exponentText, h]
    · simp [Literal.Parts.value, hvalue]
  · next c cs _ h =>
    rw [h] at hdigits hvalue
    refine ⟨⟨negative, [c], some cs, some (d.exponent + (c :: cs).length - 1)⟩, ⟨by simp, ?_, ?_⟩,
      rfl, ?_, ?_⟩
    · exact fun b hb => hdigits b (by simp [List.mem_singleton.mp hb])
    · exact fun b hb => hdigits b (List.mem_cons_of_mem c hb)
    · simp [Literal.Parts.unsignedText, Literal.Parts.fractionText, Literal.Parts.exponentText, h]
    · simp [Literal.Parts.value, hvalue, add_sub_assoc]

/-- A fraction is written with a point. -/
theorem point_mem_positional {d : Decimal} (h : d.exponent < 0) : '.' ∈ d.positional := by
  unfold positional
  rw [if_neg (by omega)]
  dsimp only
  split <;> simp

theorem mark_mem_scientific (d : Decimal) : 'e' ∈ d.scientific := by
  unfold scientific
  split
  · next h => exact absurd h Nat.toDigits_ne_nil
  · simp
  · simp

end Decimal

/-- Every layout writes a literal, and a finite double is the one that the literal denotes. -/
theorem NumberLayout.exists_parts_render (layout : NumberLayout) (x : Binary64) :
    ∃ p : Literal.Parts, p.IsLiteral ∧ p.text = layout.render x ∧
      (x.isFinite → p.toBinary64 = x) := by
  have hunsigned : Literal.Writes x.negative (layout.unsigned x)
      (Decimal.shortest layout.tie x).value := by
    unfold NumberLayout.unsigned
    dsimp only
    split
    · split
      · next hpoint =>
        exact Decimal.writes_pointed _ (by simpa using (Bool.and_eq_true_iff.mp hpoint).2)
      · exact Decimal.writes_positional _ _
    · exact Decimal.writes_scientific _ _
  obtain ⟨p, hp, hneg, htext, hvalue⟩ := hunsigned
  refine ⟨p, hp, by rw [Literal.Parts.text, render, hneg, htext], fun hfinite => ?_⟩
  rw [Literal.Parts.toBinary64_eq, hneg, hvalue]
  exact Decimal.round_shortest layout.tie hfinite

/-- **The text of a finite double determines it**, in every layout. -/
theorem NumberLayout.render_inj (layout : NumberLayout) {x y : Binary64} (hx : x.isFinite)
    (hy : y.isFinite) (h : layout.render x = layout.render y) : x = y := by
  obtain ⟨p, hp, hptext, hpx⟩ := layout.exists_parts_render x
  obtain ⟨q, hq, hqtext, hqy⟩ := layout.exists_parts_render y
  obtain rfl := Literal.text_inj hp hq (hptext.trans (h.trans hqtext.symm))
  rw [← hpx hx, hqy hy]

/-- A layout that keeps the point writes a point or an exponent, whole numbers included. -/
theorem NumberLayout.mark_mem_render {layout : NumberLayout} (h : layout.keepsPoint)
    (x : Binary64) : '.' ∈ layout.render x ∨ 'e' ∈ layout.render x := by
  have hunsigned : '.' ∈ layout.unsigned x ∨ 'e' ∈ layout.unsigned x := by
    unfold NumberLayout.unsigned
    dsimp only
    split
    · split
      · simp
      · next hpoint => exact .inl (Decimal.point_mem_positional (by simpa [h] using hpoint))
    · exact .inr (Decimal.mark_mem_scientific _)
  unfold NumberLayout.render
  split
  · exact hunsigned.imp (List.mem_cons_of_mem _) (List.mem_cons_of_mem _)
  · exact hunsigned

/-! ## Numbers -/

theorem toInt_of_int64?_eq_some {n : ℤ} {i : Int64} (h : int64? n = some i) : i.toInt = n := by
  rw [int64?, Int64.toInt_minValue, Int64.toInt_maxValue] at h
  split at h
  · next hn => cases h; exact Int64.toInt_ofInt_of_le hn.1 (by omega)
  · cases h

theorem int64?_eq_some {n : ℤ} (h : -(2 ^ 63) ≤ n ∧ n < 2 ^ 63) :
    int64? n = some (Int64.ofInt n) := by
  rw [int64?, Int64.toInt_minValue, Int64.toInt_maxValue, if_pos (by omega)]

theorem int64?_toInt (i : Int64) : int64? i.toInt = some i := by
  rw [int64?_eq_some ⟨i.le_toInt, i.toInt_lt⟩, Int64.ofInt_toInt]

namespace Binary64

/-- A magnitude that is too great becomes infinity. -/
theorem magnitude_ofMagnitude (negative : Bool) (m : ℕ) :
    (ofMagnitude negative m).magnitude = min m infinityMagnitude := by
  unfold ofMagnitude
  split <;> dsimp only <;> omega

theorem isNaN_ofMagnitude (negative : Bool) (m : ℕ) : (ofMagnitude negative m).isNaN = false := by
  simp [isNaN, magnitude_ofMagnitude]

theorem numEq_self {x : Binary64} (h : x.isNaN = false) : x.numEq x = true := by
  simp [numEq, h]

/-- What is neither finite nor a NaN is one of the two infinities. -/
theorem eq_infinity {x : Binary64} (hfinite : ¬ x.isFinite) (hnan : x.isNaN = false) :
    x = infinity x.negative := by
  obtain ⟨negative, magnitude, hlt⟩ := x
  obtain rfl : magnitude = infinityMagnitude := by
    simp only [isFinite, decide_eq_true_eq, not_lt] at hfinite
    simp only [isNaN, decide_eq_false_iff_not, not_lt] at hnan
    omega
  rfl

/-- The sign of a zero does not matter. -/
theorem numEq_ofMagnitude {s t : Bool} {m : ℕ} (h : m = 0 ∨ s = t) :
    (ofMagnitude s m).numEq (ofMagnitude t m) = true := by
  rcases h with rfl | rfl
  · simp [numEq, isNaN_ofMagnitude, magnitude_ofMagnitude, isZero]
  · exact numEq_self (isNaN_ofMagnitude s m)

end Binary64

namespace Literal

/-- The number of a literal is equal by value to the double of the literal.  Both are made of the
same natural number. -/
theorem numEq_toNumber (p : Parts) : p.toNumber.numEq (.float p.toBinary64) = true := by
  have hself : (Number.float p.toBinary64).numEq (.float p.toBinary64) = true := by
    rw [Number.numEq, Number.toBinary64, Parts.toBinary64_eq]
    · exact Binary64.numEq_self (Binary64.isNaN_ofMagnitude _ _)
    · simp
  unfold Parts.toNumber
  split
  · next hfraction hexponent =>
    split
    · next i hi =>
      set n := Nat.ofDigitChars 10 p.whole 0 with hn
      have habs : (withSign p.negative n).natAbs = n := by
        unfold withSign
        split <;> omega
      have hvalue : p.value = n := by simp [Parts.value, hfraction, hexponent, hn]
      rw [Number.numEq, Number.toBinary64, Number.toBinary64, toInt_of_int64?_eq_some hi,
        Binary64.ofInt_eq, habs, Parts.toBinary64_eq, hvalue]
      · refine Binary64.numEq_ofMagnitude ?_
        by_cases hzero : n = 0
        · simp [hzero, Binary64.roundRat]
        · -- Away from zero the sign of the literal is that of the integer.
          right
          unfold withSign
          split
          · simp_all
            omega
          · simp_all
      · simp
    · exact hself
  · exact hself

theorem isLiteral_integer (negative : Bool) (n : ℕ) :
    (⟨negative, Nat.toDigits 10 n, none, none⟩ : Parts).IsLiteral :=
  ⟨Nat.toDigits_ne_nil, Decimal.isDigit_toDigits n, by simp⟩

/-- The text of an integer is that of a literal without a point. -/
theorem toList_integerText (n : ℤ) :
    (integerText n).toList =
      (⟨decide (n < 0), Nat.toDigits 10 n.natAbs, none, none⟩ : Parts).text := by
  unfold integerText Parts.text Parts.unsignedText Parts.fractionText Parts.exponentText
  split <;> simp_all

theorem integerText_inj {m n : ℤ} (h : integerText m = integerText n) : m = n := by
  have htext := congrArg String.toList h
  rw [toList_integerText, toList_integerText] at htext
  obtain ⟨hneg, hdigits, -⟩ :=
    Parts.mk.inj (text_inj (isLiteral_integer _ _) (isLiteral_integer _ _) htext)
  have habs : m.natAbs = n.natAbs := by
    rw [← Nat.ofDigitChars_ten_toDigits (n := m.natAbs), hdigits, Nat.ofDigitChars_ten_toDigits]
  rw [← withSign_natAbs m, hneg, habs, withSign_natAbs]

theorem isDigit_of_mem_integerText {n : ℤ} {c : Char} (h : c ∈ (integerText n).toList) :
    c = '-' ∨ c.isDigit := by
  unfold integerText at h
  split at h
  · rw [String.toList_ofList] at h
    exact (List.mem_cons.mp h).imp_right (Decimal.isDigit_toDigits _ c)
  · rw [String.toList_ofList] at h
    exact .inr (Decimal.isDigit_toDigits _ c h)

/-- **Integers are read back.** -/
theorem number?_integerText (i : Int64) :
    number? (integerText i.toInt).toList = some (.int i) := by
  rw [toList_integerText, number?_text (isLiteral_integer _ _), Parts.toNumber]
  simp only [Nat.ofDigitChars_ten_toDigits, withSign_natAbs, int64?_toInt]

/-- The text of an integer that fits is read as that integer. -/
theorem int64?_integerText {n : ℤ} (h : -(2 ^ 63) ≤ n ∧ n < 2 ^ 63) :
    int64? (integerText n).toList = some (Int64.ofInt n) := by
  rw [toList_integerText, int64?, splitSign_text (isLiteral_integer _ _)]
  simp [Parts.unsignedText, Parts.fractionText, Parts.exponentText, all_isDigit_toDigits,
    Nat.toDigits_ne_nil, withSign_natAbs, int64?_eq_some h, -List.all_eq_true]

end Literal

namespace Number

theorem isDecimalChar_integerText (n : ℤ) : ∀ c ∈ (integerText n).toList, Text.isDecimalChar c := by
  rw [Literal.toList_integerText]
  exact Literal.isDecimalChar_text (Literal.isLiteral_integer _ _)

/-- A number that is neither infinite nor a NaN. -/
def isFinite : Number → Bool
  | int _ => true
  | float x => x.isFinite

/-- A finite double is written in the way its layout says. -/
theorem floatText_of_isFinite (layout : NumberLayout) {x : Binary64} (h : x.isFinite) :
    floatText layout x = String.ofList (layout.render x) := by
  have hlt : x.magnitude < Binary64.infinityMagnitude := by simpa [Binary64.isFinite] using h
  rw [floatText, if_neg, if_neg]
  · simp [Binary64.isInfinite, hlt.ne]
  · simp [Binary64.isNaN, hlt.le]

/-- **The canonical text of a finite number denotes an equal number**, and has the characters of
decimal literals only. -/
theorem number?_canonical {n : Number} (h : n.isFinite) :
    (∀ c ∈ n.canonical.toList, Text.isDecimalChar c) ∧
      ∃ m, Literal.number? n.canonical.toList = some m ∧ m.numEq n = true := by
  cases n with
  | int i =>
    refine ⟨isDecimalChar_integerText i.toInt, .int i, Literal.number?_integerText i, ?_⟩
    simp [numEq]
  | float x =>
    obtain ⟨p, hp, htext, hx⟩ := NumberLayout.exists_parts_render canonicalLayout x
    rw [canonical, floatText_of_isFinite canonicalLayout h, String.toList_ofList, ← htext]
    refine ⟨Literal.isDecimalChar_text hp, p.toNumber, Literal.number?_text hp, ?_⟩
    have := Literal.numEq_toNumber p
    rwa [hx h] at this

/-- The canonical text of a number is a decimal literal, or the word for what has none. -/
theorem canonical_cases (n : Number) : (∀ c ∈ n.canonical.toList, Text.isDecimalChar c) ∨
    n.canonical ∈ ["NaN", "Infinity", "-Infinity"] := by
  by_cases hfinite : n.isFinite
  · exact .inl (number?_canonical hfinite).1
  · right
    cases n with
    | int i => exact absurd rfl hfinite
    | float x =>
      change floatText canonicalLayout x ∈ _
      unfold floatText
      split_ifs with hnan hinfinite
      · decide
      · decide
      · decide
      · simp only [isFinite, Binary64.isFinite, Binary64.isNaN, Binary64.isInfinite,
          decide_eq_true_eq, beq_iff_eq] at hfinite hnan hinfinite
        omega

end Number

end ResourceQuery
