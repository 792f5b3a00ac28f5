import Mathlib.Tactic
import ResourceQuery.Time.Instant

/-!
# Counting days

The number of a day is computed from the year, the month and the day by a formula.  What the number
means is simpler: the first of January 1970 has the number 0, and every date has one more than the
date before it.  This file shows that the formula counts just so, in both directions and for every
date of the Gregorian calendar.

A count from day to day gets to a date through all dates on the way, and these go over the ends of
months and years.  So the count is followed in steps that grow: along a month, from month to month,
from year to year, and from 1970 to any other year.

## Main definitions

* `CivilDate.Exists`: the date is in the calendar
* `CivilDate.next`: the date of the next day
* `CivilDate.Reckoned d n`: counting from 1970, the day with the date `d` is the day `n`

## Main results

* `CivilDate.dayNumber_next`: the number of the next day is one more
* `CivilDate.reckoned_iff`: the number of a date is what counting gives
-/

namespace ResourceQuery

namespace CivilDate

/-- The date is in the calendar. -/
structure Exists (d : CivilDate) : Prop where
  one_le_month : 1 ≤ d.month
  month_le : d.month ≤ 12
  one_le_day : 1 ≤ d.day
  day_le : d.day ≤ daysInMonth d.year d.month

/-- The date of the next day. -/
def next (d : CivilDate) : CivilDate :=
  if d.day < daysInMonth d.year d.month then ⟨d.year, d.month, d.day + 1⟩
  else if d.month < 12 then ⟨d.year, d.month + 1, 1⟩
  else ⟨d.year + 1, 1, 1⟩

/-- Counting days from the first of January 1970, forward or back, the date is that of the day
with the given number. -/
inductive Reckoned : CivilDate → ℤ → Prop
  | epoch : Reckoned ⟨1970, 1, 1⟩ 0
  | next {d : CivilDate} {n : ℤ} : Reckoned d n → Reckoned d.next (n + 1)
  | previous {d : CivilDate} {n : ℤ} : d.Exists → Reckoned d.next n → Reckoned d (n - 1)

/-! ## The lengths of months and years -/

variable {d : CivilDate} {year n : ℤ} {month : ℕ}

theorem one_le_daysInMonth (year : ℤ) (month : ℕ) : 1 ≤ daysInMonth year month := by
  unfold daysInMonth
  split_ifs <;> omega

theorem daysBeforeMonth_one (year : ℤ) : daysBeforeMonth year 1 = 0 := rfl

/-- The days before a month are those before the last one and the days in it. -/
theorem daysBeforeMonth_succ (year : ℤ) (hmonth : 1 ≤ month) :
    daysBeforeMonth year (month + 1) = daysBeforeMonth year month + daysInMonth year month := by
  obtain ⟨k, rfl⟩ := Nat.exists_eq_add_of_le' hmonth
  simp [daysBeforeMonth, List.range_succ]

/-- No month has more than 31 days. -/
theorem daysBeforeMonth_le (year : ℤ) (month : ℕ) :
    daysBeforeMonth year month ≤ 31 * (month - 1) := by
  unfold daysBeforeMonth
  induction month - 1 with
  | zero => simp
  | succ k ih =>
    have hmonth : daysInMonth year (k + 1) ≤ 31 := by
      unfold daysInMonth
      split_ifs <;> omega
    rw [List.range_succ, List.foldl_append]
    simp only [List.foldl_cons, List.foldl_nil]
    omega

/-- The number of days of a year. -/
def daysInYear (year : ℤ) : ℕ := if isLeapYear year then 366 else 365

/-- A year has as many days as its twelve months. -/
theorem daysInYear_eq (year : ℤ) :
    daysBeforeMonth year 12 + daysInMonth year 12 = daysInYear year := by
  unfold daysInYear daysBeforeMonth daysInMonth
  cases isLeapYear year <;> rfl

/-- The days before a year are those before the last one and the days in it. -/
theorem daysBeforeYear_succ (year : ℤ) :
    daysBeforeYear (year + 1) = daysBeforeYear year + daysInYear year := by
  unfold daysBeforeYear leapYearsBefore daysInYear isLeapYear
  split
  · next hleap =>
    simp only [Bool.and_eq_true, Bool.or_eq_true, beq_iff_eq, bne_iff_ne] at hleap
    omega
  · next hleap =>
    simp only [Bool.and_eq_true, Bool.or_eq_true, beq_iff_eq, bne_iff_ne, not_and_or,
      not_or] at hleap
    omega

/-! ## One day after another -/

/-- The day after a day of the calendar is one. -/
theorem Exists.next (h : d.Exists) : d.next.Exists := by
  unfold CivilDate.next
  split_ifs with hday hmonth
  · exact ⟨h.one_le_month, h.month_le, by simp, by simpa using hday⟩
  · exact ⟨by simp, hmonth, le_rfl, one_le_daysInMonth _ _⟩
  · exact ⟨le_rfl, by simp, le_rfl, one_le_daysInMonth _ _⟩

/-- **The number of the next day is one more**, also over the end of a month and of a year. -/
theorem dayNumber_next (h : d.Exists) : d.next.dayNumber = d.dayNumber + 1 := by
  have hday := h.day_le
  unfold CivilDate.next dayNumber
  split_ifs with hlast hmonth
  · push_cast
    omega
  · rw [daysBeforeMonth_succ d.year h.one_le_month]
    push_cast
    omega
  · obtain hmonth : d.month = 12 := by have := h.month_le; omega
    rw [hmonth] at hday hlast
    have hyear := daysInYear_eq d.year
    rw [daysBeforeYear_succ, daysBeforeMonth_one, hmonth]
    push_cast
    omega

/-- A day is numbered from the first day of its year on, by less than 403 days. -/
theorem Exists.dayNumber_bounds (h : d.Exists) :
    daysBeforeYear d.year ≤ d.dayNumber ∧ d.dayNumber < daysBeforeYear d.year + 403 := by
  have hmonth := h.month_le
  have hday := h.one_le_day
  have hday' : d.day ≤ 31 := by
    refine h.day_le.trans ?_
    unfold daysInMonth
    split_ifs <;> omega
  have hbefore := daysBeforeMonth_le d.year d.month
  unfold dayNumber
  omega

theorem Reckoned.exists_and_dayNumber (h : Reckoned d n) : d.Exists ∧ d.dayNumber = n := by
  induction h with
  | epoch => exact ⟨⟨by decide, by decide, by decide, by decide⟩, by decide⟩
  | next _ ih =>
    refine ⟨ih.1.next, ?_⟩
    rw [dayNumber_next ih.1, ih.2]
  | previous hd _ ih =>
    refine ⟨hd, ?_⟩
    have := dayNumber_next hd
    omega

/-! ## Every date is counted -/

/-- One day more is one more in number, in both directions. -/
theorem reckoned_next_iff (h : d.Exists) : Reckoned d.next (n + 1) ↔ Reckoned d n := by
  refine ⟨fun hnext => ?_, .next⟩
  have := Reckoned.previous h hnext
  rwa [add_sub_cancel_right] at this

theorem reckoned_day_iff (hmonth : 1 ≤ month ∧ month ≤ 12) {k : ℕ}
    (hk : k < daysInMonth year month) :
    Reckoned ⟨year, month, k + 1⟩ (n + k) ↔ Reckoned ⟨year, month, 1⟩ n := by
  induction k with
  | zero => simp
  | succ k ih =>
    have hexists : Exists ⟨year, month, k + 1⟩ := ⟨hmonth.1, hmonth.2, by simp, hk.le⟩
    have hnext : (⟨year, month, k + 1⟩ : CivilDate).next = ⟨year, month, k + 1 + 1⟩ := if_pos hk
    rw [← ih (by omega), ← reckoned_next_iff hexists, hnext, Nat.cast_succ, add_assoc n]

/-- A month further, or in December a year. -/
theorem reckoned_month_iff (hmonth : 1 ≤ month ∧ month ≤ 12) :
    Reckoned (if month < 12 then ⟨year, month + 1, 1⟩ else ⟨year + 1, 1, 1⟩)
      (n + daysInMonth year month) ↔ Reckoned ⟨year, month, 1⟩ n := by
  obtain ⟨k, hk⟩ := Nat.exists_eq_add_of_le' (one_le_daysInMonth year month)
  have hexists : Exists ⟨year, month, k + 1⟩ := ⟨hmonth.1, hmonth.2, by simp, hk.ge⟩
  have hnext : (⟨year, month, k + 1⟩ : CivilDate).next =
      if month < 12 then ⟨year, month + 1, 1⟩ else ⟨year + 1, 1, 1⟩ := if_neg (by simp [hk])
  rw [← reckoned_day_iff hmonth (k := k) (by omega), ← reckoned_next_iff hexists, hnext, hk,
    Nat.cast_succ, add_assoc]

theorem reckoned_firstOfMonth_iff (hmonth : 1 ≤ month) (hle : month ≤ 12) :
    Reckoned ⟨year, month, 1⟩ (n + daysBeforeMonth year month) ↔ Reckoned ⟨year, 1, 1⟩ n := by
  induction month, hmonth using Nat.le_induction with
  | base => simp [daysBeforeMonth_one]
  | succ month hmonth ih =>
    rw [← ih (by omega), ← reckoned_month_iff ⟨hmonth, by omega⟩, if_pos (by omega),
      daysBeforeMonth_succ year hmonth, Nat.cast_add, add_assoc]

theorem reckoned_year_iff :
    Reckoned ⟨year + 1, 1, 1⟩ (n + daysInYear year) ↔ Reckoned ⟨year, 1, 1⟩ n := by
  have hdecember : Reckoned ⟨year + 1, 1, 1⟩ (n + daysBeforeMonth year 12 + daysInMonth year 12) ↔
      Reckoned ⟨year, 12, 1⟩ (n + daysBeforeMonth year 12) :=
    reckoned_month_iff ⟨Nat.one_le_ofNat, le_rfl⟩
  rw [reckoned_firstOfMonth_iff Nat.one_le_ofNat le_rfl, add_assoc, ← Nat.cast_add,
    daysInYear_eq] at hdecember
  exact hdecember

/-- The first of January is reckoned by whole years. -/
theorem reckoned_newYear (year : ℤ) : Reckoned ⟨year, 1, 1⟩ (daysBeforeYear year) := by
  induction year using Int.inductionOn' (b := 1970) with
  | zero => exact .epoch
  | succ year _ ih => rwa [daysBeforeYear_succ, reckoned_year_iff]
  | pred year _ ih =>
    have hyear := daysBeforeYear_succ (year - 1)
    rw [sub_add_cancel] at hyear
    rwa [← reckoned_year_iff, sub_add_cancel, ← hyear]

/-- **The number of a date is what counting gives**: 0 for the first of January 1970 and one more
for each day. -/
theorem reckoned_iff : Reckoned d n ↔ d.Exists ∧ d.dayNumber = n := by
  refine ⟨Reckoned.exists_and_dayNumber, ?_⟩
  rintro ⟨h, rfl⟩
  obtain ⟨year, month, day⟩ := d
  obtain ⟨hmonth, hmonth', hday, hday'⟩ := h
  obtain ⟨k, rfl⟩ := Nat.exists_eq_add_of_le' hday
  have hfirst : Reckoned ⟨year, month, 1⟩ (daysBeforeYear year + daysBeforeMonth year month) :=
    (reckoned_firstOfMonth_iff hmonth hmonth').mpr (reckoned_newYear year)
  have hnumber : dayNumber ⟨year, month, k + 1⟩ =
      daysBeforeYear year + daysBeforeMonth year month + k := by
    unfold dayNumber
    push_cast
    ring
  rw [hnumber]
  exact (reckoned_day_iff ⟨hmonth, hmonth'⟩ hday').mpr hfirst

end CivilDate

end ResourceQuery
