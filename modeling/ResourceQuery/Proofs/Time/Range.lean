import Mathlib.Tactic
import ResourceQuery.Time.DateText

/-!
# Instants in range

Every notation for dates ends in `Instant.ofCivil?`, which refuses instants outside the years a
date can have.  An instant in range that is a whole number of milliseconds, and no leap second,
is determined by its count of milliseconds.

## Main definitions

* `Instant.isWholeMillis`: a whole number of milliseconds, and no leap second
* `DateText.Reader.Yields r P`: whatever the reader `r` gives has the property `P`

## Main results

* `DateText.inRange_of_instant?`, `IsoDate.inRange_of_instant?`: dates that are read are in range
* `Instant.ofMillis?_millis`: the count of milliseconds gives the instant back
-/

namespace ResourceQuery

namespace Instant

/-- A whole number of milliseconds, and no leap second. -/
def isWholeMillis (t : Instant) : Bool := t.nanos % 1000000 == 0 && t.nanos < 1000000000

/-- A count of milliseconds denotes an instant of the supported years only. -/
theorem inRange_of_ofMillis? {n : ℤ} {t : Instant} (h : ofMillis? n = some t) : t.inRange := by
  unfold ofMillis? at h
  dsimp only at h
  split at h
  · next hrange => cases h; exact hrange
  · cases h

/-- A date and a time of day denote an instant of the supported years only. -/
theorem inRange_of_ofCivil? {date : CivilDate} {time : TimeOfDay} {offset : ℤ} {t : Instant}
    (h : ofCivil? date time offset = some t) : t.inRange := by
  unfold ofCivil? at h
  split at h
  · extract_lets leap second u at h
    split at h
    · next hrange => exact Option.some.inj h ▸ hrange
    · cases h
  · cases h

/-- **The count of milliseconds determines the instant.** -/
theorem ofMillis?_millis {t : Instant} (hrange : t.inRange) (hwhole : t.isWholeMillis) :
    ofMillis? t.millis = some t := by
  simp only [isWholeMillis, Bool.and_eq_true, beq_iff_eq, decide_eq_true_eq] at hwhole
  have hseconds : t.millis / 1000 = t.seconds := by unfold millis; omega
  have hnanos : (t.millis % 1000).toNat * 1000000 = t.nanos := by unfold millis; omega
  unfold ofMillis?
  simp only [hseconds, hnanos]
  exact if_pos hrange

/-- The count of milliseconds of an instant in range fits 64 bits. -/
theorem millis_bounds {t : Instant} (hrange : t.inRange) (hwhole : t.isWholeMillis) :
    -(2 ^ 63) ≤ t.millis ∧ t.millis < 2 ^ 63 := by
  have hmin : CivilDate.minDayNumber = -96465292 := by decide
  have hmax : CivilDate.maxDayNumber = 95026236 := by decide
  simp only [isWholeMillis, inRange, hmin, hmax, Bool.and_eq_true, beq_iff_eq,
    decide_eq_true_eq] at hrange hwhole
  unfold millis
  omega

end Instant

namespace IsoDate

/-- An ISO date denotes an instant of the supported years. -/
theorem inRange_of_instant? {cs : List Char} {t : Instant} (h : instant? cs = some t) :
    t.inRange := by
  obtain ⟨f, -, hf⟩ := Option.bind_eq_some_iff.mp h
  unfold Fields.instant? at hf
  split at hf
  · split at hf
    · exact Instant.inRange_of_ofCivil? hf
    · cases hf
  · cases hf

end IsoDate

namespace DateText

/-- Whatever a reader gives has a property. -/
def Reader.Yields {α : Type} (r : Reader α) (P : α → Prop) : Prop :=
  ∀ cs a rest, r.run cs = some (a, rest) → P a

/-- Two readers in a row give what the second one gives. -/
theorem Reader.Yields.bind {α β : Type} {r : Reader α} {f : α → Reader β} {P : β → Prop}
    (h : ∀ a, (f a).Yields P) : (r >>= f).Yields P := by
  intro cs b rest hrun
  simp only [StateT.run_bind, Option.bind_eq_bind, Option.bind_eq_some_iff] at hrun
  obtain ⟨⟨a, mid⟩, -, hb⟩ := hrun
  exact h a mid b rest hb

theorem Reader.Yields.pure {α : Type} {a : α} {P : α → Prop} (h : P a) :
    Reader.Yields (Pure.pure a) P := by
  intro cs b rest hrun
  simp only [StateT.run_pure] at hrun
  cases hrun
  exact h

theorem Reader.Yields.whole? {α : Type} {r : Reader α} {P : α → Prop} (h : r.Yields P)
    {cs : List Char} {a : α} (hr : r.whole? cs = some a) : P a := by
  unfold Reader.whole? at hr
  split at hr
  · next hrun => cases hr; exact h _ _ _ hrun
  · cases hr

/-- An optional instant that is in range if it is there. -/
def InRange (o : Option Instant) : Prop := ∀ t, o = some t → t.inRange

theorem inRange_ofCivil? (date : CivilDate) (time : TimeOfDay) (offset : ℤ) :
    InRange (Instant.ofCivil? date time offset) := fun _ h => Instant.inRange_of_ofCivil? h

theorem inRange_none : InRange none := fun _ h => nomatch h

/-- The first of the two standard forms denotes an instant of the supported years. -/
theorem rfc3339_yields : rfc3339.Yields InRange := by
  unfold rfc3339
  iterate 6 refine .bind fun _ => ?_
  extract_lets afterDate
  have hAfterDate : ∀ u, (afterDate u).Yields InRange := by
    intro u
    iterate 7 refine .bind fun _ => ?_
    extract_lets atZone
    have hZone : ∀ zone, (atZone zone).Yields InRange := fun _ => .pure (inRange_ofCivil? _ _ _)
    split
    · exact .bind fun _ => .bind hZone
    · exact .bind fun _ => .bind hZone
    · exact .bind hZone
  split
  · split
    · exact .bind hAfterDate
    · exact .bind hAfterDate
  · exact .bind hAfterDate

theorem rfc2822_yields : rfc2822.Yields InRange := by
  unfold rfc2822
  iterate 17 refine .bind fun _ => ?_
  extract_lets date afterMinute
  have hAfterMinute : ∀ second, (afterMinute second).Yields InRange := by
    intro second
    iterate 3 refine .bind fun _ => ?_
    split
    · exact .pure inRange_none
    · exact .pure (inRange_ofCivil? _ _ _)
  split
  · exact .bind fun _ => .bind hAfterMinute
  · exact .bind hAfterMinute

/-- A date in any layout denotes an instant of the supported years. -/
theorem inRange_of_layout {layout : Layout} {cs : List Char} {t : Instant}
    (h : layout.instant? cs = some t) : t.inRange := by
  unfold Layout.instant? at h
  split at h
  · exact Instant.inRange_of_ofCivil? h
  · cases h

/-- **A free-form date is in range**, whichever notation it was read in. -/
theorem inRange_of_instant? {cs : List Char} {t : Instant} (h : instant? cs = some t) :
    t.inRange := by
  unfold instant? at h
  dsimp only at h
  rcases Option.or_eq_some_iff.mp h with h | ⟨-, h⟩
  · rcases Option.or_eq_some_iff.mp h with h | ⟨-, h⟩
    · exact IsoDate.inRange_of_instant? h
    · exact rfc3339_yields.whole? (Option.join_eq_some_iff.mp h) t rfl
  · rcases Option.or_eq_some_iff.mp h with h | ⟨-, h⟩
    · exact rfc2822_yields.whole? (Option.join_eq_some_iff.mp h) t rfl
    · obtain ⟨layout, -, hlayout⟩ := List.exists_of_findSome?_eq_some h
      exact inRange_of_layout hlayout

end DateText

end ResourceQuery
