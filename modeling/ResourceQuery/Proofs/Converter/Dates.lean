import ResourceQuery.Proofs.Converter.ReadBack
import ResourceQuery.Proofs.Time.IsoDate

/-!
# Dates read back

Canonical text counts the milliseconds of a date.  Two of the three converters for dates give whole
milliseconds only: the one for counts of milliseconds itself, and the one for ISO dates, which drops
further digits of a fraction.  Free-form dates keep nine digits and know leap seconds, and their
canonical text says less than they do.

What is read back is the last whole millisecond up to the date, a leap second counting on into the
second after it.  There is no such second after the last one that a date can have, so that the
leap second there is not read back at all.

## Main definitions

* `Instant.isLeapSecond`, `Instant.lastSecond`

## Main results

* `Converter.isWholeMillis_of_epoch`, `Converter.isWholeMillis_of_isodate`: whole milliseconds
* `DateText.nanos_lt_of_instant?`: free-form dates are within their second, or the leap second
  after it
* `Registry.convert_canonical_date`: what the canonical text of a date is read as
* `Registry.date_read_back_iff`: when a date is read back
-/

namespace ResourceQuery

namespace Instant

/-- The instant is in a leap second. -/
def isLeapSecond (t : Instant) : Bool := 1000000000 ≤ t.nanos

/-- The last second that is in range. -/
def lastSecond : ℤ := CivilDate.maxDayNumber * 86400 + 86399

variable {t u : Instant}

/-- A count of milliseconds is that of one instant of whole milliseconds. -/
theorem ofMillis?_eq_some_iff {n : ℤ} :
    ofMillis? n = some u ↔ u.inRange ∧ u.isWholeMillis ∧ u.millis = n := by
  constructor
  · intro h
    refine ⟨inRange_of_ofMillis? h, ?_⟩
    unfold ofMillis? at h
    dsimp only at h
    split at h
    · obtain rfl := Option.some.inj h
      simp only [isWholeMillis, millis, Bool.and_eq_true, beq_iff_eq, decide_eq_true_eq]
      omega
    · cases h
  · rintro ⟨hrange, hwhole, rfl⟩
    exact ofMillis?_millis hrange hwhole

/-- **The count of milliseconds is in range**, but for a leap second at the very end. -/
theorem exists_ofMillis?_millis_iff (hrange : t.inRange) (hnanos : t.nanos < 2000000000) :
    (∃ u, ofMillis? t.millis = some u) ↔ ¬ (t.isLeapSecond ∧ t.seconds = lastSecond) := by
  have hmin : CivilDate.minDayNumber = -96465292 := by decide
  have hmax : CivilDate.maxDayNumber = 95026236 := by decide
  have hsome : (∃ u, ofMillis? t.millis = some u) ↔ -96465292 ≤ t.millis / 1000 / 86400 ∧
      t.millis / 1000 / 86400 ≤ 95026236 := by
    unfold ofMillis? inRange
    simp only [hmin, hmax, Bool.and_eq_true, decide_eq_true_eq]
    split <;> simp_all
  simp only [inRange, hmin, hmax, Bool.and_eq_true, decide_eq_true_eq] at hrange
  rw [hsome]
  simp only [isLeapSecond, lastSecond, hmax, millis, decide_eq_true_eq]
  omega

/-- The count of milliseconds of an instant in range fits 64 bits, also in a leap second. -/
theorem millis_bounds_of_nanos_lt (hrange : t.inRange) (hnanos : t.nanos < 2000000000) :
    -(2 ^ 63) ≤ t.millis ∧ t.millis < 2 ^ 63 := by
  have hmin : CivilDate.minDayNumber = -96465292 := by decide
  have hmax : CivilDate.maxDayNumber = 95026236 := by decide
  simp only [inRange, hmin, hmax, Bool.and_eq_true, decide_eq_true_eq] at hrange
  unfold millis
  omega

theorem nanos_lt_of_isWholeMillis (h : t.isWholeMillis) : t.nanos < 2000000000 := by
  simp only [isWholeMillis, Bool.and_eq_true, beq_iff_eq, decide_eq_true_eq] at h
  omega

/-- A second of 60 is the last one of its minute with a whole second more of nanoseconds, which is
how a leap second is stored. -/
theorem nanos_of_ofCivil? {date : CivilDate} {time : TimeOfDay} {offset : ℤ}
    (h : ofCivil? date time offset = some t) :
    t.nanos = if time.second = 60 then time.nanos + 1000000000 else time.nanos := by
  unfold ofCivil? at h
  split at h
  · extract_lets leap second u at h
    split at h
    · obtain rfl := Option.some.inj h
      rfl
    · cases h
  · cases h

/-- The nanoseconds of a date and a time are less than two seconds, leap seconds included. -/
theorem nanos_lt_of_ofCivil? {date : CivilDate} {time : TimeOfDay} {offset : ℤ}
    (htime : time.nanos < 1000000000) (h : ofCivil? date time offset = some t) :
    t.nanos < 2000000000 := by
  rw [nanos_of_ofCivil? h]
  split <;> omega

end Instant

/-! ## What the converters for dates give -/

namespace IsoDate

theorem isWholeMillis_of_instant? {cs : List Char} {t : Instant} (h : instant? cs = some t) :
    t.isWholeMillis := by
  obtain ⟨f, -, hf⟩ := Option.bind_eq_some_iff.mp h
  unfold Fields.instant? at hf
  split at hf
  · next ms hms =>
    split at hf
    · next hsecond =>
      have hlt : ms < 1000 := by
        unfold millis? at hms
        dsimp only at hms
        split at hms
        · next hdigits =>
          obtain rfl := Option.some.inj hms
          have := ofDigitChars_lt (List.all_eq_true.mp hdigits)
          simpa using this
        · cases hms
      have hnanos := Instant.nanos_of_ofCivil? hf
      rw [if_neg hsecond.ne] at hnanos
      simp only [Instant.isWholeMillis, hnanos, Bool.and_eq_true, beq_iff_eq, decide_eq_true_eq]
      omega
    · cases hf
  · cases hf

end IsoDate

namespace DateText

theorem Reader.Yields.bind_of {α β : Type} {r : Reader α} {f : α → Reader β} {Q : α → Prop}
    {P : β → Prop} (hr : r.Yields Q) (h : ∀ a, Q a → (f a).Yields P) : (r >>= f).Yields P := by
  intro cs b rest hrun
  simp only [StateT.run_bind, Option.bind_eq_bind, Option.bind_eq_some_iff] at hrun
  obtain ⟨⟨a, mid⟩, ha, hb⟩ := hrun
  exact h a (hr cs a mid ha) mid b rest hb

theorem digitRun_yields (most : Option ℕ) :
    (digitRun most).Yields fun run => ∀ c ∈ run, c.isDigit := by
  intro cs run rest hrun c hc
  have hdigits : ∀ c ∈ cs.takeWhile Char.isDigit, c.isDigit :=
    List.all_eq_true.mp List.all_takeWhile
  cases most with
  | none =>
    obtain ⟨rfl, -⟩ := Prod.mk.inj (Option.some.inj hrun)
    exact hdigits c hc
  | some n =>
    obtain ⟨rfl, -⟩ := Prod.mk.inj (Option.some.inj hrun)
    exact hdigits c (List.mem_of_mem_take hc)

theorem nanosAfterPoint_yields : nanosAfterPoint.Yields (· < 1000000000) := by
  unfold nanosAfterPoint
  refine .bind_of (digitRun_yields none) fun run hrun => ?_
  have hlt : Nat.ofDigitChars 10 ((run ++ List.replicate 9 '0').take 9) 0 < 1000000000 := by
    have hdigits : ∀ c ∈ (run ++ List.replicate 9 '0').take 9, c.isDigit := by
      intro c hc
      rcases List.mem_append.mp (List.mem_of_mem_take hc) with hc | hc
      · exact hrun c hc
      · exact Decimal.isDigit_replicate_zero 9 c hc
    have := IsoDate.ofDigitChars_lt hdigits
    simpa using this
  split
  · exact .bind fun _ => .pure hlt
  · exact Reader.Yields.pure (P := (· < 1000000000)) hlt

theorem optionalNanos_yields : optionalNanos.Yields (· < 1000000000) := by
  unfold optionalNanos
  refine .bind fun marked => ?_
  split
  · exact nanosAfterPoint_yields
  · exact .pure (by norm_num)

/-- An optional instant that is within its second, or the leap second after it, if it is there. -/
def IsBrief (o : Option Instant) : Prop := ∀ t, o = some t → t.nanos < 2000000000

theorem isBrief_ofCivil? {date : CivilDate} {time : TimeOfDay} {offset : ℤ}
    (h : time.nanos < 1000000000) : IsBrief (Instant.ofCivil? date time offset) :=
  fun _ ht => Instant.nanos_lt_of_ofCivil? h ht

theorem rfc3339_yields_isBrief : rfc3339.Yields IsBrief := by
  unfold rfc3339
  iterate 6 refine .bind fun _ => ?_
  extract_lets afterDate
  have hAfterDate : ∀ u, (afterDate u).Yields IsBrief := by
    intro u
    iterate 5 refine .bind fun _ => ?_
    refine .bind_of optionalNanos_yields fun nanos hnanos => .bind fun _ => ?_
    extract_lets atZone
    have hZone : ∀ zone, (atZone zone).Yields IsBrief := fun _ => .pure (isBrief_ofCivil? hnanos)
    split
    · exact .bind fun _ => .bind hZone
    · exact .bind fun _ => .bind hZone
    · exact .bind hZone
  split
  · split
    · exact .bind hAfterDate
    · exact .bind hAfterDate
  · exact .bind hAfterDate

theorem rfc2822_yields_isBrief : rfc2822.Yields IsBrief := by
  unfold rfc2822
  iterate 17 refine .bind fun _ => ?_
  extract_lets date afterMinute
  have hAfterMinute : ∀ second, (afterMinute second).Yields IsBrief := by
    intro second
    iterate 3 refine .bind fun _ => ?_
    split
    · exact .pure fun _ h => nomatch h
    · exact .pure (isBrief_ofCivil? (by norm_num))
  split
  · exact .bind fun _ => .bind hAfterMinute
  · exact .bind hAfterMinute

/-- No directive of a layout sets more nanoseconds than there are in a second. -/
theorem Directive.read_yields {f : Fields} (h : f.nanos < 1000000000) (d : Directive) :
    (d.read f).Yields fun g => g.nanos < 1000000000 := by
  cases d with
  | fraction => exact .bind_of optionalNanos_yields fun _ hnanos => .pure hnanos
  | _ => exact .bind fun _ => .pure h

theorem Layout.read_yields {f : Fields} (h : f.nanos < 1000000000) (layout : Layout) :
    (Layout.read f layout).Yields fun g => g.nanos < 1000000000 := by
  induction layout generalizing f with
  | nil => exact .pure h
  | cons d ds ih => exact .bind_of (d.read_yields h) fun _ hf => ih hf

theorem nanos_lt_of_layout {layout : Layout} {cs : List Char} {t : Instant}
    (h : layout.instant? cs = some t) : t.nanos < 2000000000 := by
  unfold Layout.instant? at h
  split at h
  · next f hf =>
    exact Instant.nanos_lt_of_ofCivil? ((Layout.read_yields (by norm_num) layout).whole? hf) h
  · cases h

/-- **A free-form date is within its second**, or the leap second after it. -/
theorem nanos_lt_of_instant? {cs : List Char} {t : Instant} (h : instant? cs = some t) :
    t.nanos < 2000000000 := by
  unfold instant? at h
  dsimp only at h
  rcases Option.or_eq_some_iff.mp h with h | ⟨-, h⟩
  · rcases Option.or_eq_some_iff.mp h with h | ⟨-, h⟩
    · exact Instant.nanos_lt_of_isWholeMillis (IsoDate.isWholeMillis_of_instant? h)
    · exact rfc3339_yields_isBrief.whole? (Option.join_eq_some_iff.mp h) t rfl
  · rcases Option.or_eq_some_iff.mp h with h | ⟨-, h⟩
    · exact rfc2822_yields_isBrief.whole? (Option.join_eq_some_iff.mp h) t rfl
    · obtain ⟨layout, -, hlayout⟩ := List.exists_of_findSome?_eq_some h
      exact nanos_lt_of_layout hlayout

end DateText

namespace Converter

variable {body : String} {t : Instant}

/-- A converter for dates gives the date that its reader finds in the decoded text. -/
theorem dated_eq_ok_iff {name : String} {read : List Char → Option Instant} {v : Value} :
    dated name read body = .ok v ↔
      ∃ t, read (Percent.decode body).toList = some t ∧ v = .date t := by
  unfold dated
  split
  · next t ht => simp [ht, eq_comm]
  · next ht => simp [ht]

theorem read_of_dated {name : String} {read : List Char → Option Instant}
    (h : dated name read body = .ok (.date t)) : read (Percent.decode body).toList = some t := by
  obtain ⟨u, hu, ⟨⟩⟩ := dated_eq_ok_iff.mp h
  exact hu

theorem isWholeMillis_of_epoch (h : epoch body = .ok (.date t)) : t.isWholeMillis := by
  obtain ⟨n, -, hn⟩ := Option.bind_eq_some_iff.mp (read_of_dated h)
  exact (Instant.ofMillis?_eq_some_iff.mp hn).2.1

theorem isWholeMillis_of_isodate (h : isodate body = .ok (.date t)) : t.isWholeMillis :=
  IsoDate.isWholeMillis_of_instant? (read_of_dated h)

/-- A date from a free-form text has less than two seconds of nanoseconds. -/
theorem nanos_lt_of_date (h : date body = .ok (.date t)) : t.nanos < 2000000000 :=
  DateText.nanos_lt_of_instant? (read_of_dated h)

end Converter

/-! ## Reading the canonical text -/

namespace Registry

variable {name tag body : String} {t : Instant}

/-- **What the canonical text of a date is read as**: the date of the same count of milliseconds. -/
theorem convert_canonical_date (hrange : t.inRange) (hnanos : t.nanos < 2000000000) {v : Value} :
    builtin.convert name (Value.date t).canonical = .ok v ↔
      ∃ u, Instant.ofMillis? t.millis = some u ∧ v = .date u := by
  have hchars := Number.isDecimalChar_integerText t.millis
  have hbounds := Instant.millis_bounds_of_nanos_lt hrange hnanos
  have htext : (Value.date t).canonical = "epoch" ++ ":" ++ integerText t.millis := rfl
  have hepoch : builtin.find? "epoch" = some Converter.epoch := rfl
  rw [htext, convert_tagged (by decide) hepoch, Converter.epoch, Converter.dated_eq_ok_iff,
    decode_decimal hchars, Literal.int64?_integerText hbounds, Option.bind_some,
    Int64.toInt_ofInt_of_le hbounds.1 hbounds.2]

/-- A free-form date that can be read is converted. -/
theorem convert_date (h : DateText.instant? (Percent.decode body).toList = some t) :
    builtin.convert name ("date" ++ ":" ++ body) = .ok (.date t) := by
  rw [convert_tagged (c := Converter.date) (by decide) rfl]
  exact Converter.dated_eq_ok_iff.mpr ⟨t, h, rfl⟩

/-- The converters for dates by their tags. -/
theorem nanos_lt_of_tagged (htag : tag = "epoch" ∨ tag = "isodate" ∨ tag = "date")
    (h : builtin.convert name (tag ++ ":" ++ body) = .ok (.date t)) :
    t.nanos < 2000000000 ∧ (tag ≠ "date" → t.isWholeMillis) := by
  rcases htag with rfl | rfl | rfl
  · rw [convert_tagged (c := Converter.epoch) (by decide) rfl] at h
    have hwhole := Converter.isWholeMillis_of_epoch h
    exact ⟨Instant.nanos_lt_of_isWholeMillis hwhole, fun _ => hwhole⟩
  · rw [convert_tagged (c := Converter.isodate) (by decide) rfl] at h
    have hwhole := Converter.isWholeMillis_of_isodate h
    exact ⟨Instant.nanos_lt_of_isWholeMillis hwhole, fun _ => hwhole⟩
  · rw [convert_tagged (c := Converter.date) (by decide) rfl] at h
    exact ⟨Converter.nanos_lt_of_date h, fun hne => absurd rfl hne⟩

/-- **When a date is read back.**  A date that a converter gave is read back from its canonical text
if and only if it is a whole number of milliseconds and no leap second, which only a free-form date
may fail to be.  Otherwise the date of the same count of milliseconds is read, if there is one: the
leap second at the end of the range is refused. -/
theorem date_read_back_iff (htag : tag = "epoch" ∨ tag = "isodate" ∨ tag = "date")
    (h : builtin.convert name (tag ++ ":" ++ body) = .ok (.date t)) (name' : String) :
    ((∃ v, builtin.convert name' (Value.date t).canonical = .ok v ∧ v.eqv (.date t) = true) ↔
      t.isWholeMillis) ∧
    (tag ≠ "date" → t.isWholeMillis) ∧
    (∀ v, builtin.convert name' (Value.date t).canonical = .ok v ↔
      ∃ u, v = .date u ∧ u.inRange ∧ u.isWholeMillis ∧ u.millis = t.millis) ∧
    ((∃ v, builtin.convert name' (Value.date t).canonical = .ok v) ↔
      ¬ (t.isLeapSecond ∧ t.seconds = Instant.lastSecond)) := by
  have hrange : t.inRange := isReadable_of_convert h
  obtain ⟨hnanos, hwhole⟩ := nanos_lt_of_tagged htag h
  have hread : ∀ v, builtin.convert name' (Value.date t).canonical = .ok v ↔
      ∃ u, v = .date u ∧ u.inRange ∧ u.isWholeMillis ∧ u.millis = t.millis := by
    intro v
    rw [convert_canonical_date hrange hnanos]
    simp only [Instant.ofMillis?_eq_some_iff, and_comm]
  refine ⟨⟨?_, ?_⟩, hwhole, hread, ?_⟩
  · rintro ⟨v, hv, heqv⟩
    obtain ⟨u, rfl, -, hu, -⟩ := (hread v).mp hv
    obtain rfl : u = t := by simpa [Value.eqv] using heqv
    exact hu
  · intro ht
    exact ⟨.date t, (hread _).mpr ⟨t, rfl, hrange, ht, rfl⟩, by simp [Value.eqv]⟩
  · rw [← Instant.exists_ofMillis?_millis_iff hrange hnanos]
    constructor
    · rintro ⟨v, hv⟩
      obtain ⟨u, hu, -⟩ := (convert_canonical_date hrange hnanos).mp hv
      exact ⟨u, hu⟩
    · rintro ⟨u, hu⟩
      exact ⟨.date u, (convert_canonical_date hrange hnanos).mpr ⟨u, hu, rfl⟩⟩

/-- Seven digits of a fraction, four of them lost, and a leap second at the end of the range. -/
theorem date_read_back_iff_lossy :
    (∃ t, builtin.convert "auto" "date:2012-12-18%2010:26:59.1234567Z" = .ok (.date t) ∧
      ¬ ∃ v, builtin.convert "auto" (Value.date t).canonical = .ok v ∧ v.eqv (.date t) = true) ∧
    (∃ t, builtin.convert "auto" "date:%2B262142-12-31%2023:59:60" = .ok (.date t) ∧
      ¬ ∃ v, builtin.convert "auto" (Value.date t).canonical = .ok v) := by
  have hfraction : builtin.convert "auto" ("date" ++ ":" ++ "2012-12-18%2010:26:59.1234567Z") =
      .ok (.date ⟨1355826419, 123456700⟩) := convert_date (by decide +kernel)
  have hleap : builtin.convert "auto" ("date" ++ ":" ++ "%2B262142-12-31%2023:59:60") =
      .ok (.date ⟨8210266876799, 1000000000⟩) := convert_date (by decide +kernel)
  refine ⟨⟨_, hfraction, fun hback => ?_⟩, ⟨_, hleap, fun hback => ?_⟩⟩
  · exact absurd ((date_read_back_iff (.inr (.inr rfl)) hfraction "auto").1.mp hback) (by decide)
  · exact absurd ((date_read_back_iff (.inr (.inr rfl)) hleap "auto").2.2.2.mp hback) (by decide)

end Registry

end ResourceQuery
