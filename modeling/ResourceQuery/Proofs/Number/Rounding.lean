import Mathlib.Algebra.Order.Floor.Semifield
import Mathlib.Data.Int.Log
import Mathlib.Data.Rat.Floor
import Mathlib.Tactic
import ResourceQuery.Number.Binary64

/-!
# Rounding to the nearest double

Reading a decimal rounds a fraction, and the fraction can be written in many ways: with a
common factor more or less, with the power of ten multiplied out or not, or answered by a
shortcut because it is out of range.  This file shows that none of this matters: the double
depends on the rational number alone.

## Main definitions

* `Binary64.nearestEven q`: the integer nearest to `q`, a half going to the even one
* `Binary64.roundRat q`: the magnitude of the double nearest to `q`
* `Binary64.value x`: the absolute value of a finite double

## Main results

* `Binary64.ofDecimal_eq`: reading a decimal rounds its value, shortcuts included
* `Binary64.ofMagnitude_roundRat_value`: a double is the rounding of its own value
-/

namespace ResourceQuery

namespace Binary64

/-- The integer nearest to a non-negative rational, a half going to the even one. -/
def nearestEven (q : ℚ) : ℕ :=
  if 1 < 2 * (q - ⌊q⌋₊) ∨ (2 * (q - ⌊q⌋₊) = 1 ∧ ⌊q⌋₊ % 2 = 1) then ⌊q⌋₊ + 1 else ⌊q⌋₊

/-- The exponent of the last significand bit of the doubles around a positive rational. -/
def unitExponent (q : ℚ) : ℤ := max (-1074) (Int.log 2 q - 52)

/-- The magnitude of the double nearest to a non-negative rational, not yet cut off at
infinity. -/
def roundRat (q : ℚ) : ℕ :=
  if q = 0 then 0
  else (unitExponent q + 1074).toNat * 2 ^ 52 + nearestEven (q / 2 ^ unitExponent q)

/-- The absolute value of a finite double. -/
def value (x : Binary64) : ℚ := x.significand * 2 ^ x.exponent

/-! ## Rounding a fraction depends on its value only -/

/-- Division of natural numbers with rounding is rounding of the quotient. -/
theorem roundDiv_eq (num : ℕ) {den : ℕ} (hden : 0 < den) :
    roundDiv num den = nearestEven (num / den) := by
  have hden' : (0 : ℚ) < den := by exact_mod_cast hden
  have hfloor : ⌊(num / den : ℚ)⌋₊ = num / den := Nat.floor_div_eq_div num den
  have hsplit : (num : ℚ) = den * (num / den : ℕ) + (num % den : ℕ) := by
    exact_mod_cast (Nat.div_add_mod num den).symm
  have hfrac : 2 * ((num / den : ℚ) - (num / den : ℕ)) = (2 * (num % den) : ℕ) / den := by
    rw [Nat.cast_mul]
    field_simp
    push_cast
    linarith
  have hgt : 1 < 2 * ((num / den : ℚ) - (num / den : ℕ)) ↔ den < 2 * (num % den) := by
    rw [hfrac, lt_div_iff₀ hden', one_mul]
    exact Nat.cast_lt
  have heq : 2 * ((num / den : ℚ) - (num / den : ℕ)) = 1 ↔ 2 * (num % den) = den := by
    rw [hfrac, div_eq_one_iff_eq hden'.ne']
    exact Nat.cast_inj
  simp only [roundDiv, nearestEven, hfloor, hgt, heq, gt_iff_lt]

theorem scale_snd_pos (num : ℕ) {den : ℕ} (hden : 0 < den) (e : ℤ) : 0 < (scale num den e).2 := by
  unfold scale
  simp only [Nat.pow_eq]
  split <;> positivity

/-- Scaling by a power of two divides the fraction by it. -/
theorem scale_ratio (num den : ℕ) (e : ℤ) :
    ((scale num den e).1 / (scale num den e).2 : ℚ) = num / den / 2 ^ e := by
  unfold scale
  split
  · next he =>
    obtain ⟨n, rfl⟩ := Int.eq_ofNat_of_zero_le he
    simp [div_div]
  · next he =>
    obtain ⟨n, hn⟩ := Int.eq_ofNat_of_zero_le (by omega : 0 ≤ -e)
    obtain rfl : e = -(n : ℤ) := by omega
    simp [mul_div_right_comm]

/-- The logarithm of a fraction is pinned down by those of its parts, up to one. -/
theorem log_ratio_bounds {num den : ℕ} (hnum : num ≠ 0) (hden : 0 < den) :
    (num.log2 : ℤ) - den.log2 - 1 ≤ Int.log 2 (num / den : ℚ) ∧
      Int.log 2 (num / den : ℚ) < (num.log2 : ℤ) - den.log2 + 1 := by
  have hq : (0 : ℚ) < num / den := by positivity
  have hden' : (0 : ℚ) < den := by exact_mod_cast hden
  have hnlow : (2 : ℚ) ^ (num.log2 : ℤ) ≤ num := by
    rw [zpow_natCast]; exact_mod_cast Nat.log2_self_le hnum
  have hnhigh : (num : ℚ) < 2 ^ (num.log2 + 1 : ℤ) := by
    exact_mod_cast Nat.lt_log2_self (n := num)
  have hdlow : (2 : ℚ) ^ (den.log2 : ℤ) ≤ den := by
    rw [zpow_natCast]; exact_mod_cast Nat.log2_self_le hden.ne'
  have hdhigh : (den : ℚ) < 2 ^ (den.log2 + 1 : ℤ) := by
    exact_mod_cast Nat.lt_log2_self (n := den)
  constructor
  · rw [← Int.zpow_le_iff_le_log Nat.one_lt_two hq, le_div_iff₀ hden']
    calc (2 : ℚ) ^ ((num.log2 : ℤ) - den.log2 - 1) * den
        ≤ 2 ^ ((num.log2 : ℤ) - den.log2 - 1) * 2 ^ (den.log2 + 1 : ℤ) := by gcongr
      _ = 2 ^ (num.log2 : ℤ) := by rw [← zpow_add₀ two_ne_zero]; congr 1; ring
      _ ≤ num := hnlow
  · rw [← Int.lt_zpow_iff_log_lt Nat.one_lt_two hq, div_lt_iff₀ hden']
    calc (num : ℚ) < 2 ^ (num.log2 + 1 : ℤ) := hnhigh
      _ = 2 ^ ((num.log2 : ℤ) - den.log2 + 1) * 2 ^ (den.log2 : ℤ) := by
        rw [← zpow_add₀ two_ne_zero]; congr 1; ring
      _ ≤ 2 ^ ((num.log2 : ℤ) - den.log2 + 1) * den := by gcongr

/-- The exponent that a fraction is scaled by is that of its unit: the bits of the two numbers leave
two candidates, and one comparison decides between them. -/
theorem scaleExponent_eq {num den : ℕ} (hnum : num ≠ 0) (hden : 0 < den) :
    scaleExponent num den = unitExponent (num / den) := by
  have hq : (0 : ℚ) < num / den := by positivity
  obtain ⟨hlow, hhigh⟩ := log_ratio_bounds hnum hden
  set low : ℤ := (num.log2 : ℤ) - den.log2 - 53 with hlowdef
  have hd : (0 : ℚ) < (scale num den low).2 := by exact_mod_cast scale_snd_pos num hden low
  have htest : (scale num den low).1 < 2 ^ 53 * (scale num den low).2 ↔
      Int.log 2 (num / den : ℚ) < low + 53 := by
    rw [← Int.lt_zpow_iff_log_lt Nat.one_lt_two hq, add_comm low, zpow_add₀ (by norm_num),
      ← div_lt_iff₀ (by positivity)]
    push_cast
    rw [← scale_ratio, div_lt_iff₀ hd]
    exact_mod_cast Iff.rfl
  unfold scaleExponent unitExponent
  simp only [Nat.pow_eq, ← hlowdef, htest]
  split <;> congr 1 <;> omega

/-- **A fraction is rounded as the rational that it is.** -/
theorem roundRatio_eq (num : ℕ) {den : ℕ} (hden : 0 < den) :
    roundRatio num den = roundRat (num / den) := by
  have hden' : (den : ℚ) ≠ 0 := by exact_mod_cast hden.ne'
  by_cases hnum : num = 0
  · simp [roundRatio, roundRat, hnum]
  · have hq : (num / den : ℚ) ≠ 0 := by positivity
    unfold roundRatio roundRat
    simp only [Nat.pow_eq, if_neg hnum, if_neg hq, scaleExponent_eq hnum hden]
    rw [roundDiv_eq _ (scale_snd_pos num hden _), scale_ratio]

/-! ## Out of range -/

/-- Beyond the largest double the magnitude reaches that of infinity. -/
theorem infinityMagnitude_le_roundRat {q : ℚ} (hq : 2 ^ 1024 ≤ q) :
    infinityMagnitude ≤ roundRat q := by
  have hpos : 0 < q := lt_of_lt_of_le (by positivity) hq
  have hlog : 1024 ≤ Int.log 2 q := by
    rw [← Int.zpow_le_iff_le_log Nat.one_lt_two hpos]
    exact_mod_cast hq
  have hunit : unitExponent q = Int.log 2 q - 52 := max_eq_right (by omega)
  have hsig : 2 ^ 52 ≤ ⌊q / 2 ^ unitExponent q⌋₊ := by
    refine Nat.le_floor ?_
    rw [le_div_iff₀ (by positivity), hunit]
    calc ((2 ^ 52 : ℕ) : ℚ) * 2 ^ (Int.log 2 q - 52)
        = 2 ^ (52 : ℤ) * 2 ^ (Int.log 2 q - 52) := by norm_num
      _ = 2 ^ Int.log 2 q := by rw [← zpow_add₀ two_ne_zero]; congr 1; ring
      _ ≤ q := by exact_mod_cast Int.zpow_log_le_self Nat.one_lt_two hpos
  have hnear : ⌊q / 2 ^ unitExponent q⌋₊ ≤ nearestEven (q / 2 ^ unitExponent q) := by
    unfold nearestEven
    split <;> omega
  rw [roundRat, if_neg hpos.ne', infinityMagnitude]
  omega

/-- Below half of the smallest double the magnitude is zero. -/
theorem roundRat_eq_zero {q : ℚ} (h0 : 0 ≤ q) (hq : q < 2 ^ (-1075 : ℤ)) : roundRat q = 0 := by
  rcases h0.eq_or_lt with rfl | hpos
  · simp [roundRat]
  have hlog : Int.log 2 q < -1075 := by
    rw [← Int.lt_zpow_iff_log_lt Nat.one_lt_two hpos]
    exact_mod_cast hq
  have hunit : unitExponent q = -1074 := max_eq_left (by omega)
  have hhalf : 2 * (q / 2 ^ (-1074 : ℤ)) < 1 := by
    have hsplit : (2 : ℚ) ^ (-1074 : ℤ) = 2 * 2 ^ (-1075 : ℤ) := by
      rw [← zpow_one_add₀ two_ne_zero]; norm_num
    rw [hsplit, ← mul_div_assoc, div_lt_one (by positivity)]
    linarith
  have hfloor : ⌊q / 2 ^ (-1074 : ℤ)⌋₊ = 0 := by
    rw [Nat.floor_eq_zero]
    linarith
  have hnear : nearestEven (q / 2 ^ (-1074 : ℤ)) = 0 := by
    rw [nearestEven, hfloor, Nat.cast_zero, sub_zero, if_neg]
    rintro (h | ⟨h, -⟩)
    · exact absurd h hhalf.not_gt
    · exact hhalf.ne h
  rw [roundRat, if_neg hpos.ne', hunit, hnear]
  simp

/-- An exponent of ten this large alone takes a number beyond the largest double. -/
theorem two_pow_le_decimal {digits : ℕ} (hdigits : digits ≠ 0) {e : ℤ} (he : 310 ≤ e) :
    (2 : ℚ) ^ 1024 ≤ digits * 10 ^ e := by
  have hpos : (1 : ℚ) ≤ digits := by exact_mod_cast Nat.one_le_iff_ne_zero.mpr hdigits
  calc (2 : ℚ) ^ 1024 ≤ 10 ^ (310 : ℤ) := by
        exact_mod_cast (show 2 ^ 1024 ≤ 10 ^ 310 by decide +kernel)
    _ ≤ 10 ^ e := zpow_le_zpow_right₀ (by norm_num) he
    _ ≤ digits * 10 ^ e := le_mul_of_one_le_left (by positivity) hpos

/-- The digits count as if they were a power of ten, which is more than they are: below the
bound on the exponents there is nothing that rounds to a double other than zero. -/
theorem decimal_lt_two_pow {digits : ℕ} {e : ℤ} (h : e + digits.log2 < -344) :
    (digits : ℚ) * 10 ^ e < 2 ^ (-1075 : ℤ) := by
  calc (digits : ℚ) * 10 ^ e < 2 ^ (digits.log2 + 1) * 10 ^ e := by
        gcongr
        exact_mod_cast Nat.lt_log2_self (n := digits)
    _ = 2 * (2 ^ digits.log2 * 10 ^ e) := by ring
    _ ≤ 2 * (10 ^ digits.log2 * 10 ^ e) := by gcongr; norm_num
    _ = 2 * 10 ^ (e + digits.log2) := by
        rw [add_comm, zpow_add₀ (by norm_num), zpow_natCast]
    _ ≤ 2 * 10 ^ (-345 : ℤ) := by
        gcongr
        · norm_num
        · omega
    _ < 2 ^ (-1075 : ℤ) := by
        rw [zpow_neg, zpow_neg, ← div_eq_mul_inv, ← one_div, div_lt_div_iff₀ (by positivity)
          (by positivity)]
        exact_mod_cast (show 2 * 2 ^ 1075 < 1 * 10 ^ 345 by decide +kernel)

/-- **Reading a decimal rounds its value**: the shortcuts for exponents out of range agree with
the rounding they leave out. -/
theorem ofDecimal_eq (negative : Bool) (digits : ℕ) (e : ℤ) :
    ofDecimal negative digits e = ofMagnitude negative (roundRat (digits * 10 ^ e)) := by
  unfold ofDecimal
  split
  · next h => simp [h, roundRat, ofMagnitude, zero, infinityMagnitude]
  next hdigits =>
  split
  · next he =>
    have hbig := infinityMagnitude_le_roundRat (two_pow_le_decimal hdigits he)
    rw [ofMagnitude, dif_neg (not_lt.mpr hbig), infinity]
  next he =>
  split
  · next hsmall =>
    rw [roundRat_eq_zero (by positivity) (decimal_lt_two_pow hsmall)]
    simp [ofMagnitude, zero, infinityMagnitude]
  split
  · next hnonneg =>
    obtain ⟨n, rfl⟩ := Int.eq_ofNat_of_zero_le hnonneg
    rw [ofRatio, roundRatio_eq _ Nat.one_pos]
    simp
  · next hneg =>
    obtain ⟨n, hn⟩ := Int.eq_ofNat_of_zero_le (by omega : 0 ≤ -e)
    obtain rfl : e = -(n : ℤ) := by omega
    rw [ofRatio, Nat.pow_eq, roundRatio_eq _ (by positivity)]
    simp [div_eq_mul_inv]

theorem ofInt_eq (n : ℤ) :
    ofInt n = ofMagnitude (decide (n < 0)) (roundRat n.natAbs) := by
  rw [ofInt, ofRatio, roundRatio_eq _ Nat.one_pos]
  simp

/-! ## A double rounds to itself -/

theorem nearestEven_natCast (n : ℕ) : nearestEven n = n := by
  simp [nearestEven]

theorem significand_lt (x : Binary64) : x.significand < 2 ^ 53 := by
  have := Nat.mod_lt x.magnitude (show 0 < 2 ^ 52 by norm_num)
  unfold significand
  simp only [Nat.pow_eq]
  split <;> omega

/-- Only the doubles of the lowest exponent have a short significand. -/
theorem exponent_eq_or_le_significand (x : Binary64) :
    x.exponent = -1074 ∨ -1074 ≤ x.exponent ∧ 2 ^ 52 ≤ x.significand := by
  unfold exponent exponentField significand
  simp only [Nat.pow_eq]
  split
  · next h =>
    left
    have : x.magnitude / 2 ^ 52 = 0 := Nat.div_eq_of_lt h
    omega
  · right
    omega

theorem unitExponent_value {x : Binary64} (h : x.significand ≠ 0) :
    unitExponent x.value = x.exponent := by
  have hsig : (0 : ℚ) < x.significand := by positivity
  have hv : 0 < x.value := by unfold value; positivity
  have hupper : Int.log 2 x.value < x.exponent + 53 := by
    rw [← Int.lt_zpow_iff_log_lt Nat.one_lt_two hv, Nat.cast_ofNat, value, add_comm,
      zpow_add₀ two_ne_zero]
    gcongr
    exact_mod_cast x.significand_lt
  rcases x.exponent_eq_or_le_significand with he | ⟨he, hlow⟩
  · exact (max_eq_left (by omega)).trans he.symm
  · have hlower : x.exponent + 52 ≤ Int.log 2 x.value := by
      rw [← Int.zpow_le_iff_le_log Nat.one_lt_two hv, Nat.cast_ofNat, value, add_comm,
        zpow_add₀ two_ne_zero]
      gcongr
      exact_mod_cast hlow
    unfold unitExponent
    omega

/-- The magnitude of a double is put together from its exponent and its significand. -/
theorem magnitude_eq_of_significand (x : Binary64) :
    (x.exponent + 1074).toNat * 2 ^ 52 + x.significand = x.magnitude := by
  unfold exponent exponentField significand
  simp only [Nat.pow_eq]
  split
  · next h =>
    have : x.magnitude / 2 ^ 52 = 0 := Nat.div_eq_of_lt h
    rw [this]
    norm_num
  · omega

/-- **The value of a double rounds to itself.** -/
theorem roundRat_value (x : Binary64) : roundRat x.value = x.magnitude := by
  have hmag := x.magnitude_eq_of_significand
  by_cases h : x.significand = 0
  · have he := x.exponent_eq_or_le_significand
    have hexp : x.exponent = -1074 := he.resolve_right fun ⟨_, hle⟩ => by omega
    rw [h, hexp] at hmag
    simpa [roundRat, value, h] using hmag
  · have hv : x.value ≠ 0 := by unfold value; positivity
    have hunits : x.value / 2 ^ x.exponent = x.significand := by
      unfold value
      rw [mul_div_cancel_right₀ _ (by positivity)]
    rw [roundRat, if_neg hv, unitExponent_value h, hunits, nearestEven_natCast, hmag]

/-- **A finite double is the rounding of its own value.** -/
theorem ofMagnitude_roundRat_value {x : Binary64} (h : x.isFinite) :
    ofMagnitude x.negative (roundRat x.value) = x := by
  rw [roundRat_value, ofMagnitude, dif_pos (by simpa [isFinite] using h)]

end Binary64

end ResourceQuery
