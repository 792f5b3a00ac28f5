import Mathlib.Tactic
import ResourceQuery.Proofs.Time.Calendar
import ResourceQuery.Proofs.Time.Range

/-!
# ISO dates and their instants

A text is an ISO date if it can be put together from left to right: a year, then each finer part
after its mark as far as the text goes, then a zone.  The reader accepts these texts and no others,
and what it gives is the instant that the parts denote.

A `-` with two digits may begin a month, a day or a zone, so the reader has two ways to go on.  It
makes no difference that it tries the finer part first: what would be left of a zone after such a
part, two digits with or without a colon, neither is a zone nor begins a further part.

## Main definitions

* `IsoDate.Numeral`: a run of digits of a given width and its number
* `IsoDate.Zone`: a zone and its offset
* `IsoDate.Written`: a date as far as it is written out, with its fields
* `IsoDate.Spells`: a date and a zone
* `IsoDate.Fields.Exists`, `IsoDate.Fields.millisOfDay`: whether and when the fields are

## Main results

* `IsoDate.after_eq_some_iff`: one step of the reader
* `IsoDate.fields?_eq_some_iff`: the reader accepts what is spelled like an ISO date
* `IsoDate.instant?_eq_some_iff_spells`: the texts that are read, and their instants
-/

namespace ResourceQuery

namespace IsoDate

/-- A run of decimal digits of a given width, and the number it spells. -/
structure Numeral (width : ℕ) (cs : List Char) (n : ℕ) : Prop where
  length_eq : cs.length = width
  isDigit : ∀ c ∈ cs, c.isDigit
  value_eq : Nat.ofDigitChars 10 cs 0 = n

/-- Hours and minutes, with a colon between them or without, in minutes. -/
inductive Clock : List Char → ℕ → Prop
  | plain {hh mm : List Char} {h m : ℕ} :
      Numeral 2 hh h → Numeral 2 mm m → Clock (hh ++ mm) (h * 60 + m)
  | colon {hh mm : List Char} {h m : ℕ} :
      Numeral 2 hh h → Numeral 2 mm m → Clock (hh ++ ':' :: mm) (h * 60 + m)

/-- A zone, in minutes east of Greenwich. -/
inductive Zone : List Char → ℤ → Prop
  | absent : Zone [] 0
  | utc : Zone ['Z'] 0
  | east {cs : List Char} {m : ℕ} : Clock cs m → Zone ('+' :: cs) m
  | west {cs : List Char} {m : ℕ} : Clock cs m → Zone ('-' :: cs) (-m)

/-- How far a date is written out. -/
inductive Precision where
  | year
  | month
  | day
  | hour
  | minute
  | second
  | fraction

/-- The next finer part of a date, with the mark in front of it. -/
inductive Extends : Precision → Fields → List Char → Precision → Fields → Prop
  | month {f : Fields} {cs : List Char} {n : ℕ} :
      Numeral 2 cs n → Extends .year f ('-' :: cs) .month { f with month := n }
  | day {f : Fields} {cs : List Char} {n : ℕ} :
      Numeral 2 cs n → Extends .month f ('-' :: cs) .day { f with day := n }
  | hour {f : Fields} {cs : List Char} {n : ℕ} :
      Numeral 2 cs n → Extends .day f ('T' :: cs) .hour { f with hour := n }
  | minute {f : Fields} {cs : List Char} {n : ℕ} :
      Numeral 2 cs n → Extends .hour f (':' :: cs) .minute { f with minute := n }
  | second {f : Fields} {cs : List Char} {n : ℕ} :
      Numeral 2 cs n → Extends .minute f (':' :: cs) .second { f with second := n }
  | fraction {f : Fields} {cs : List Char} :
      cs ≠ [] → (∀ c ∈ cs, c.isDigit) →
        Extends .second f ('.' :: cs) .fraction { f with fraction := cs }

/-- A date as far as it is written out.  What is not written keeps the least value it can have. -/
inductive Written : Precision → List Char → Fields → Prop
  | year {cs : List Char} {n : ℕ} : Numeral 4 cs n → Written .year cs { year := n }
  | finer {p q : Precision} {cs ds : List Char} {f g : Fields} :
      Written p cs f → Extends p f ds q g → Written q (cs ++ ds) g

/-- A date of any precision and a zone. -/
def Spells (cs : List Char) (f : Fields) : Prop :=
  ∃ p date zone g z, Written p date g ∧ Zone zone z ∧ cs = date ++ zone ∧
    f = { g with zone := z * 60 }

/-! ## Digits and zones -/

/-- Two characters are read as a number if they are two digits. -/
theorem pair?_eq_some_iff {a b : Char} {n : ℕ} : pair? a b = some n ↔ Numeral 2 [a, b] n := by
  unfold pair?
  constructor
  · intro h
    split at h
    · next hdigits =>
      obtain ⟨ha, hb⟩ := Bool.and_eq_true_iff.mp hdigits
      exact ⟨rfl, by simp [ha, hb], Option.some.inj h⟩
    · cases h
  · rintro ⟨-, hdigits, rfl⟩
    exact if_pos (by simp [hdigits a, hdigits b])

theorem Numeral.exists_eq {cs : List Char} {n : ℕ} (h : Numeral 2 cs n) : ∃ a b, cs = [a, b] :=
  List.length_eq_two.mp h.length_eq

/-- An offset is read from a sign, two digits of hours and two of minutes. -/
theorem offset?_eq_some_iff {sign a b c d : Char} {z : ℤ} :
    offset? sign a b c d = some z ↔ ∃ h m, Numeral 2 [a, b] h ∧ Numeral 2 [c, d] m ∧
      (sign = '+' ∧ z = ((h * 60 + m : ℕ) : ℤ) * 60 ∨
        sign = '-' ∧ z = -((h * 60 + m : ℕ) : ℤ) * 60) := by
  simp only [← pair?_eq_some_iff]
  unfold offset?
  constructor
  · intro hz
    split at hz
    · next h m hh hm =>
      refine ⟨h, m, hh, hm, ?_⟩
      split_ifs at hz with hplus hminus
      · exact .inl ⟨hplus, by rw [← Option.some.inj hz]; push_cast; ring⟩
      · exact .inr ⟨hminus, by rw [← Option.some.inj hz]; push_cast; ring⟩
    · cases hz
  · rintro ⟨h, m, hh, hm, ⟨rfl, rfl⟩ | ⟨rfl, rfl⟩⟩
    · simp only [hh, hm, if_true]
      push_cast
      ring_nf
    · simp only [hh, hm, if_true]
      rw [if_neg (by decide)]
      push_cast
      ring_nf

theorem Clock.cases_length {cs : List Char} {m : ℕ} (h : Clock cs m) :
    ∃ a b c d h m', (cs = [a, b, c, d] ∨ cs = [a, b, ':', c, d]) ∧ Numeral 2 [a, b] h ∧
      Numeral 2 [c, d] m' ∧ m = h * 60 + m' := by
  cases h with
  | plain hh hm =>
    obtain ⟨a, b, rfl⟩ := hh.exists_eq
    obtain ⟨c, d, rfl⟩ := hm.exists_eq
    exact ⟨a, b, c, d, _, _, .inl rfl, hh, hm, rfl⟩
  | colon hh hm =>
    obtain ⟨a, b, rfl⟩ := hh.exists_eq
    obtain ⟨c, d, rfl⟩ := hm.exists_eq
    exact ⟨a, b, c, d, _, _, .inr rfl, hh, hm, rfl⟩

theorem zone_of_offset? {sign a b c d : Char} {z : ℤ} (h : offset? sign a b c d = some z) :
    ∃ m, Zone [sign, a, b, c, d] m ∧ Zone [sign, a, b, ':', c, d] m ∧ z = m * 60 := by
  obtain ⟨h, m, hh, hm, ⟨rfl, rfl⟩ | ⟨rfl, rfl⟩⟩ := offset?_eq_some_iff.mp h
  · exact ⟨_, .east (.plain hh hm), .east (.colon hh hm), rfl⟩
  · exact ⟨_, .west (.plain hh hm), .west (.colon hh hm), rfl⟩

/-- A zone is read exactly if it is spelled as one. -/
theorem zone?_eq_some_iff {cs : List Char} {z : ℤ} :
    zone? cs = some z ↔ ∃ m, Zone cs m ∧ z = m * 60 := by
  constructor
  · intro h
    unfold zone? at h
    split at h
    · exact ⟨0, .absent, (Option.some.inj h).symm⟩
    · exact ⟨0, .utc, (Option.some.inj h).symm⟩
    · obtain ⟨m, hm, -, hz⟩ := zone_of_offset? h
      exact ⟨m, hm, hz⟩
    · obtain ⟨m, -, hm, hz⟩ := zone_of_offset? h
      exact ⟨m, hm, hz⟩
    · cases h
  · rintro ⟨m, hm, rfl⟩
    cases hm with
    | absent => rfl
    | utc => rfl
    | east hclock =>
      obtain ⟨a, b, c, d, h, m, rfl | rfl, hh, hm, rfl⟩ := hclock.cases_length
      · exact offset?_eq_some_iff.mpr ⟨h, m, hh, hm, .inl ⟨rfl, rfl⟩⟩
      · exact offset?_eq_some_iff.mpr ⟨h, m, hh, hm, .inl ⟨rfl, rfl⟩⟩
    | west hclock =>
      obtain ⟨a, b, c, d, h, m, rfl | rfl, hh, hm, rfl⟩ := hclock.cases_length
      · exact offset?_eq_some_iff.mpr ⟨h, m, hh, hm, .inr ⟨rfl, rfl⟩⟩
      · exact offset?_eq_some_iff.mpr ⟨h, m, hh, hm, .inr ⟨rfl, rfl⟩⟩

/-- What is left of a date may be its zone. -/
theorem atZone?_eq_some_iff {f g : Fields} {cs : List Char} :
    atZone? f cs = some g ↔ ∃ m, Zone cs m ∧ g = { f with zone := m * 60 } := by
  simp only [atZone?, Option.map_eq_some_iff, zone?_eq_some_iff]
  constructor
  · rintro ⟨_, ⟨m, hm, rfl⟩, rfl⟩
    exact ⟨m, hm, rfl⟩
  · rintro ⟨m, hm, rfl⟩
    exact ⟨_, ⟨m, hm, rfl⟩, rfl⟩

/-! ## One step of the reader -/

section Step

variable {f g : Fields} {cs : List Char}

/-- A reader that goes on with two digits after a mark, or else ends with a zone.  No text lets it
do both. -/
structure Branches (mark : Char) (next : ℕ → List Char → Option Fields) (f : Fields)
    (read : List Char → Option Fields) : Prop where
  marked : ∀ a b rest, read (mark :: a :: b :: rest) =
    ((pair? a b).bind fun n => next n rest).or (atZone? f (mark :: a :: b :: rest))
  other : ∀ cs, (∀ a b rest, cs ≠ mark :: a :: b :: rest) → read cs = atZone? f cs
  apart : ∀ a b rest m, Zone (mark :: a :: b :: rest) m → ∀ n, next n rest = none

/-- A reader that branches takes the zone, or a mark with two digits and goes on. -/
theorem Branches.eq_some_iff {mark : Char} {next : ℕ → List Char → Option Fields}
    {read : List Char → Option Fields} (h : Branches mark next f read) :
    read cs = some g ↔ atZone? f cs = some g ∨
      ∃ ds rest n, cs = mark :: ds ++ rest ∧ Numeral 2 ds n ∧ next n rest = some g := by
  by_cases hcs : ∃ a b rest, cs = mark :: a :: b :: rest
  · obtain ⟨a, b, rest, rfl⟩ := hcs
    rw [h.marked, Option.or_eq_some_iff, Option.bind_eq_some_iff]
    constructor
    · rintro (⟨n, hn, hnext⟩ | ⟨-, hzone⟩)
      · exact .inr ⟨[a, b], rest, n, rfl, pair?_eq_some_iff.mp hn, hnext⟩
      · exact .inl hzone
    · rintro (hzone | ⟨ds, rest', n, heq, hn, hnext⟩)
      · obtain ⟨m, hm, -⟩ := atZone?_eq_some_iff.mp hzone
        refine .inr ⟨?_, hzone⟩
        rw [Option.bind_eq_none_iff]
        exact fun n _ => h.apart a b rest m hm n
      · obtain ⟨a', b', rfl⟩ := hn.exists_eq
        cases heq
        exact .inl ⟨n, pair?_eq_some_iff.mpr hn, hnext⟩
  · push Not at hcs
    rw [h.other cs hcs]
    refine ⟨.inl, ?_⟩
    rintro (hzone | ⟨ds, rest, n, heq, hn, -⟩)
    · exact hzone
    · obtain ⟨a, b, rfl⟩ := hn.exists_eq
      exact absurd heq (hcs a b rest)

/-- After two of its digits a zone has two more left, with or without a colon. -/
theorem exists_of_zone_minus {a b : Char} {rest : List Char} {m : ℤ}
    (h : Zone ('-' :: a :: b :: rest) m) : ∃ c d, rest = [c, d] ∨ rest = [':', c, d] := by
  cases h with
  | west hclock =>
    obtain ⟨a', b', c, d, -, -, heq | heq, -⟩ := hclock.cases_length
    · exact ⟨c, d, .inl (by simpa using congrArg (List.drop 2) heq)⟩
    · exact ⟨c, d, .inr (by simpa using congrArg (List.drop 2) heq)⟩

/-- Behind a year there is the zone, or a minus sign and the month. -/
theorem branches_year :
    Branches '-' (fun n => afterMonth? { f with month := n }) f (afterYear? f) where
  marked _ _ _ := rfl
  other cs hcs := by
    unfold afterYear?
    split
    · exact absurd rfl (hcs _ _ _)
    · rfl
  apart a b rest m hm n := by
    obtain ⟨c, d, rfl | rfl⟩ := exists_of_zone_minus hm <;> simp [afterMonth?, atZone?, zone?]

/-- Behind a month there is the zone, or a minus sign and the day. -/
theorem branches_month :
    Branches '-' (fun n => afterDay? { f with day := n }) f (afterMonth? f) where
  marked _ _ _ := rfl
  other cs hcs := by
    unfold afterMonth?
    split
    · exact absurd rfl (hcs _ _ _)
    · rfl
  apart a b rest m hm n := by
    obtain ⟨c, d, rfl | rfl⟩ := exists_of_zone_minus hm <;> simp [afterDay?, atZone?, zone?]

theorem atZone?_marked {mark : Char} (hmark : mark = 'T' ∨ mark = ':') :
    atZone? f (mark :: cs) = none := by
  rw [Option.eq_none_iff_forall_ne_some]
  intro g h
  obtain ⟨m, hzone, -⟩ := atZone?_eq_some_iff.mp h
  cases hzone <;> simp at hmark

/-- No zone starts with either of the marks, so a reader that tests for the mark first branches as
well. -/
theorem branches_of_marked {mark : Char} {next : ℕ → List Char → Option Fields}
    {read : List Char → Option Fields} (hmark : mark = 'T' ∨ mark = ':')
    (marked : ∀ a b rest, read (mark :: a :: b :: rest) = (pair? a b).bind fun n => next n rest)
    (other : ∀ cs, (∀ a b rest, cs ≠ mark :: a :: b :: rest) → read cs = atZone? f cs) :
    Branches mark next f read where
  marked a b rest := by rw [marked, atZone?_marked hmark, Option.or_none]
  other := other
  apart a b rest m hm := by
    cases hm <;> simp at hmark

/-- Behind a day there is the zone, or a `T` and the hour. -/
theorem branches_day : Branches 'T' (fun n => afterHour? { f with hour := n }) f (afterDay? f) := by
  refine branches_of_marked (.inl rfl) (fun _ _ _ => rfl) fun cs hcs => ?_
  unfold afterDay?
  split
  · exact absurd rfl (hcs _ _ _)
  · rfl

theorem branches_hour :
    Branches ':' (fun n => afterMinute? { f with minute := n }) f (afterHour? f) := by
  refine branches_of_marked (.inr rfl) (fun _ _ _ => rfl) fun cs hcs => ?_
  unfold afterHour?
  split
  · exact absurd rfl (hcs _ _ _)
  · rfl

theorem branches_minute :
    Branches ':' (fun n => afterSecond? { f with second := n }) f (afterMinute? f) := by
  refine branches_of_marked (.inr rfl) (fun _ _ _ => rfl) fun cs hcs => ?_
  unfold afterMinute?
  split
  · exact absurd rfl (hcs _ _ _)
  · rfl

theorem Zone.span_eq {rest : List Char} {m : ℤ} (h : Zone rest m) :
    rest.span Text.isDecimalDigit = ([], rest) := by
  rw [List.span_eq_takeWhile_dropWhile]
  cases h with
  | absent => rfl
  | utc => rfl
  | east _ => rfl
  | west _ => rfl

/-- After the seconds comes a fraction, as far as there are digits, or a zone. -/
theorem afterSecond?_eq_some_iff (hascii : ∀ c ∈ cs, c.toNat < 128) :
    afterSecond? f cs = some g ↔ atZone? f cs = some g ∨
      ∃ ds rest, cs = '.' :: ds ++ rest ∧ ds ≠ [] ∧ (∀ c ∈ ds, c.isDigit) ∧
        atZone? { f with fraction := ds } rest = some g := by
  unfold afterSecond?
  split
  · next cs =>
    constructor
    · intro h
      dsimp only at h
      rw [List.span_eq_takeWhile_dropWhile] at h
      split at h
      · cases h
      · next hne =>
        refine .inr ⟨_, _, (by rw [List.cons_append, List.takeWhile_append_dropWhile]), ?_, ?_, h⟩
        · simpa using hne
        · intro c hc
          rw [← Text.isDecimalDigit_of_ascii c (hascii c ?_)]
          · exact List.all_eq_true.mp List.all_takeWhile c hc
          · exact List.mem_cons_of_mem _ (List.takeWhile_subset _ hc)
    · rintro (hzone | ⟨ds, rest, heq, hne, hdigits, hzone⟩)
      · obtain ⟨m, hm, -⟩ := atZone?_eq_some_iff.mp hzone
        cases hm
      · obtain rfl : cs = ds ++ rest := List.tail_eq_of_cons_eq heq
        obtain ⟨m, hm, -⟩ := atZone?_eq_some_iff.mp hzone
        have hdecimal : ∀ c ∈ ds, Text.isDecimalDigit c := fun c hc => by
          simp [Text.isDecimalDigit, hdigits c hc]
        have hspan : (ds ++ rest).span Text.isDecimalDigit = (ds, rest) := by
          have hrest := hm.span_eq
          rw [List.span_eq_takeWhile_dropWhile, Prod.mk.injEq] at hrest
          rw [List.span_eq_takeWhile_dropWhile, List.takeWhile_append_of_pos hdecimal,
            List.dropWhile_append_of_pos hdecimal, hrest.1, hrest.2, List.append_nil]
        dsimp only
        rw [hspan, if_neg (by simpa using hne)]
        exact hzone
  · next hcs =>
    refine ⟨.inl, ?_⟩
    rintro (hzone | ⟨ds, rest, rfl, -⟩)
    · exact hzone
    · exact absurd rfl (hcs (ds ++ rest))

/-- Reading on after a date of a given precision. -/
def after : Precision → Fields → List Char → Option Fields
  | .year => afterYear?
  | .month => afterMonth?
  | .day => afterDay?
  | .hour => afterHour?
  | .minute => afterMinute?
  | .second => afterSecond?
  | .fraction => atZone?

/-- A reader with a part after a mark takes one step, if that part is the next finer one. -/
theorem Branches.after_eq_some_iff {mark : Char} {next : ℕ → List Char → Option Fields}
    {p q : Precision} {part : ℕ → Fields} (h : Branches mark next f (after p f))
    (hnext : ∀ n, after q (part n) = next n)
    (hextends : ∀ {ds q' f'}, Extends p f ds q' f' ↔
      ∃ ds' n, ds = mark :: ds' ∧ q' = q ∧ f' = part n ∧ Numeral 2 ds' n) :
    after p f cs = some g ↔ atZone? f cs = some g ∨
      ∃ ds rest q f', cs = ds ++ rest ∧ Extends p f ds q f' ∧ after q f' rest = some g := by
  rw [h.eq_some_iff]
  refine or_congr_right ⟨?_, ?_⟩
  · rintro ⟨ds, rest, n, rfl, hn, hg⟩
    exact ⟨_, rest, q, part n, rfl, hextends.mpr ⟨ds, n, rfl, rfl, rfl, hn⟩, hnext n ▸ hg⟩
  · rintro ⟨_, rest, _, _, rfl, hext, hg⟩
    obtain ⟨ds, n, rfl, rfl, rfl, hn⟩ := hextends.mp hext
    exact ⟨ds, rest, n, rfl, hn, hnext n ▸ hg⟩

/-- **One step of the reader**: the text ends with a zone, or goes on with the next finer part. -/
theorem after_eq_some_iff {p : Precision} (hascii : ∀ c ∈ cs, c.toNat < 128) :
    after p f cs = some g ↔ atZone? f cs = some g ∨
      ∃ ds rest q f', cs = ds ++ rest ∧ Extends p f ds q f' ∧ after q f' rest = some g := by
  cases p with
  | year =>
    refine branches_year.after_eq_some_iff (q := .month) (fun n => rfl) ⟨?_, ?_⟩
    · intro hext
      cases hext with
      | month hn => exact ⟨_, _, rfl, rfl, rfl, hn⟩
    · rintro ⟨_, _, rfl, rfl, rfl, hn⟩
      exact .month hn
  | month =>
    refine branches_month.after_eq_some_iff (q := .day) (fun n => rfl) ⟨?_, ?_⟩
    · intro hext
      cases hext with
      | day hn => exact ⟨_, _, rfl, rfl, rfl, hn⟩
    · rintro ⟨_, _, rfl, rfl, rfl, hn⟩
      exact .day hn
  | day =>
    refine branches_day.after_eq_some_iff (q := .hour) (fun n => rfl) ⟨?_, ?_⟩
    · intro hext
      cases hext with
      | hour hn => exact ⟨_, _, rfl, rfl, rfl, hn⟩
    · rintro ⟨_, _, rfl, rfl, rfl, hn⟩
      exact .hour hn
  | hour =>
    refine branches_hour.after_eq_some_iff (q := .minute) (fun n => rfl) ⟨?_, ?_⟩
    · intro hext
      cases hext with
      | minute hn => exact ⟨_, _, rfl, rfl, rfl, hn⟩
    · rintro ⟨_, _, rfl, rfl, rfl, hn⟩
      exact .minute hn
  | minute =>
    refine branches_minute.after_eq_some_iff (q := .second) (fun n => rfl) ⟨?_, ?_⟩
    · intro hext
      cases hext with
      | second hn => exact ⟨_, _, rfl, rfl, rfl, hn⟩
    · rintro ⟨_, _, rfl, rfl, rfl, hn⟩
      exact .second hn
  | second =>
    rw [after, afterSecond?_eq_some_iff hascii]
    refine or_congr_right ⟨?_, ?_⟩
    · rintro ⟨ds, rest, rfl, hne, hdigits, hzone⟩
      exact ⟨_, rest, _, _, rfl, .fraction hne hdigits, hzone⟩
    · rintro ⟨_, rest, _, _, rfl, hext, hzone⟩
      cases hext with
      | fraction hne hdigits => exact ⟨_, rest, rfl, hne, hdigits, hzone⟩
  | fraction =>
    refine ⟨.inl, ?_⟩
    rintro (hzone | ⟨_, _, _, _, -, hext, -⟩)
    · exact hzone
    · cases hext

end Step

/-! ## The texts that are read -/

/-- To say more of a date takes more characters. -/
theorem Extends.ne_nil {p q : Precision} {f g : Fields} {ds : List Char}
    (h : Extends p f ds q g) : ds ≠ [] := by
  cases h <;> simp

/-- A year of four digits is read as two pairs. -/
theorem year_of_numeral {a b c d : Char} {n : ℕ} (h : Numeral 4 [a, b, c, d] n) :
    ∃ x y, pair? a b = some x ∧ pair? c d = some y ∧ 100 * x + y = n := by
  have hdigits := h.isDigit
  simp only [List.forall_mem_cons, List.not_mem_nil, false_implies, implies_true,
    and_true] at hdigits
  obtain ⟨ha, hb, hc, hd⟩ := hdigits
  refine ⟨_, _, pair?_eq_some_iff.mpr ⟨rfl, by simp [ha, hb], rfl⟩,
    pair?_eq_some_iff.mpr ⟨rfl, by simp [hc, hd], rfl⟩, ?_⟩
  rw [← h.value_eq]
  simp only [Nat.ofDigitChars_cons, Nat.ofDigitChars_nil]
  ring

theorem numeral_of_pairs {a b c d : Char} {x y : ℕ} (hx : pair? a b = some x)
    (hy : pair? c d = some y) : Numeral 4 [a, b, c, d] (100 * x + y) := by
  obtain ⟨-, hab, rfl⟩ := pair?_eq_some_iff.mp hx
  obtain ⟨-, hcd, rfl⟩ := pair?_eq_some_iff.mp hy
  refine ⟨rfl, ?_, ?_⟩
  · intro e he
    rcases List.mem_append.mp (show e ∈ [a, b] ++ [c, d] from he) with he | he
    · exact hab e he
    · exact hcd e he
  · simp only [Nat.ofDigitChars_cons, Nat.ofDigitChars_nil]
    ring

section Run

variable {p : Precision} {date rest : List Char} {f g : Fields}

/-- What is read after a date makes the whole text a date with a zone. -/
theorem Written.spells (hdate : Written p date f) (hascii : ∀ c ∈ rest, c.toNat < 128)
    (h : after p f rest = some g) : Spells (date ++ rest) g := by
  induction hn : rest.length using Nat.strong_induction_on generalizing p date rest f with
  | _ n ih =>
    rcases (after_eq_some_iff hascii).mp h with hzone | ⟨ds, rest', q, f', rfl, hext, hafter⟩
    · obtain ⟨m, hm, rfl⟩ := atZone?_eq_some_iff.mp hzone
      exact ⟨p, date, rest, f, m, hdate, hm, rfl, rfl⟩
    · have hlt : rest'.length < n := by
        have := List.length_pos_of_ne_nil hext.ne_nil
        rw [List.length_append] at hn
        omega
      rw [← List.append_assoc]
      exact ih _ hlt (hdate.finer hext) (fun c hc => hascii c (List.mem_append_right ds hc))
        hafter rfl

/-- What can be read after a date can be read with the date in front. -/
theorem Written.fields? (hdate : Written p date f) (hascii : ∀ c ∈ date ++ rest, c.toNat < 128)
    (h : after p f rest = some g) : fields? (date ++ rest) = some g := by
  induction hdate generalizing rest with
  | year hn =>
    obtain ⟨a, b, c, d, rfl⟩ := List.length_eq_four.mp hn.length_eq
    obtain ⟨x, y, hx, hy, rfl⟩ := year_of_numeral hn
    simp only [List.cons_append, List.nil_append, IsoDate.fields?, hx, hy]
    exact h
  | finer hdate hext ih =>
    rw [List.append_assoc] at hascii ⊢
    refine ih hascii ((after_eq_some_iff ?_).mpr (.inr ⟨_, rest, _, _, rfl, hext, h⟩))
    exact fun c hc => hascii c (List.mem_append_right _ hc)

end Run

/-- **The reader accepts what is spelled like an ISO date**, and takes its parts apart. -/
theorem fields?_eq_some_iff {cs : List Char} (hascii : ∀ c ∈ cs, c.toNat < 128) {f : Fields} :
    fields? cs = some f ↔ Spells cs f := by
  constructor
  · intro h
    unfold fields? at h
    split at h
    · next a b c d rest =>
      split at h
      · next x y hx hy =>
        have hyear := Written.year (numeral_of_pairs hx hy)
        exact hyear.spells (fun e he => hascii e (by simp [he])) h
      · cases h
    · cases h
  · rintro ⟨p, date, zone, g, m, hdate, hzone, rfl, rfl⟩
    refine hdate.fields? hascii ((after_eq_some_iff ?_).mpr (.inl ?_))
    · exact fun c hc => hascii c (List.mem_append_right date hc)
    · exact atZone?_eq_some_iff.mpr ⟨m, hzone, rfl⟩

/-! ## The instants they denote -/

/-- A number of so many digits is less than that power of ten. -/
theorem ofDigitChars_lt {cs : List Char} (h : ∀ c ∈ cs, c.isDigit) :
    Nat.ofDigitChars 10 cs 0 < 10 ^ cs.length := by
  induction cs with
  | nil => simp
  | cons c cs ih =>
    have hc : c.toNat - '0'.toNat < 10 := by
      have hle : c.toNat ≤ 57 := (Char.isDigit_iff_toNat.mp (h c (by simp))).2
      have hzero : '0'.toNat = 48 := rfl
      omega
    rw [Nat.ofDigitChars_cons, Nat.ofDigitChars_eq_ofDigitChars_zero, List.length_cons, pow_succ]
    have := ih fun d hd => h d (List.mem_cons_of_mem c hd)
    nlinarith

namespace Fields

/-- The date and the time of day exist, and the zone is less than a day off. -/
structure Exists (f : Fields) : Prop where
  date : CivilDate.Exists ⟨f.year, f.month, f.day⟩
  hour_lt : f.hour < 24
  minute_lt : f.minute < 60
  second_lt : f.second < 60
  zone_lt : f.zone.natAbs < 1440 * 60

/-- The first three digits of the fraction, filled up with zeros. -/
def millis (f : Fields) : ℕ :=
  Nat.ofDigitChars 10 (f.fraction.take 3) 0 * 10 ^ (3 - f.fraction.length)

/-- The milliseconds from midnight to the time of day. -/
def millisOfDay (f : Fields) : ℕ :=
  ((f.hour * 60 + f.minute) * 60 + f.second) * 1000 + f.millis

/-- What a text can say: a year of four digits and a fraction of digits. -/
structure Proper (f : Fields) : Prop where
  year_lt : f.year < 10000
  isDigit : ∀ c ∈ f.fraction, c.isDigit

theorem Proper.millis? {f : Fields} (h : f.Proper) :
    IsoDate.millis? f.fraction = some f.millis := by
  have htake : (f.fraction ++ ['0', '0', '0']).take 3 =
      f.fraction.take 3 ++ List.replicate (3 - f.fraction.length) '0' := by
    rw [List.take_append, show ['0', '0', '0'] = List.replicate 3 '0' from rfl, List.take_replicate,
      min_eq_left (Nat.sub_le _ _)]
  have hdigits : ((f.fraction ++ ['0', '0', '0']).take 3).all Char.isDigit := by
    rw [List.all_eq_true]
    intro c hc
    rcases List.mem_append.mp (List.mem_of_mem_take hc) with hc | hc
    · exact h.isDigit c hc
    · fin_cases hc <;> rfl
  unfold IsoDate.millis? millis
  rw [if_pos hdigits, htake, Nat.ofDigitChars_append, Nat.ofDigitChars_replicate_zero, mul_comm]

theorem Proper.millis_lt {f : Fields} (h : f.Proper) : f.millis < 1000 := by
  have htake := ofDigitChars_lt fun c hc => h.isDigit c (List.mem_of_mem_take (i := 3) hc)
  rw [List.length_take] at htake
  unfold millis
  calc Nat.ofDigitChars 10 (f.fraction.take 3) 0 * 10 ^ (3 - f.fraction.length)
      < 10 ^ min 3 f.fraction.length * 10 ^ (3 - f.fraction.length) := by gcongr
    _ = 1000 := by
      rw [← pow_add, show min 3 f.fraction.length + (3 - f.fraction.length) = 3 by omega]
      rfl

end Fields

/-- A date that is written out has a year of four digits and digits for a fraction. -/
theorem Written.proper {p : Precision} {date : List Char} {f : Fields} (h : Written p date f) :
    f.Proper := by
  induction h with
  | year hn =>
    refine ⟨?_, by simp⟩
    have := ofDigitChars_lt hn.isDigit
    rwa [hn.length_eq, hn.value_eq] at this
  | finer _ hext ih =>
    cases hext with
    | fraction _ hdigits => exact ⟨ih.year_lt, hdigits⟩
    | _ => exact ⟨ih.year_lt, ih.isDigit⟩

theorem Spells.proper {cs : List Char} {f : Fields} (h : Spells cs f) : f.Proper := by
  obtain ⟨p, date, zone, g, m, hdate, -, -, rfl⟩ := h
  exact ⟨hdate.proper.year_lt, hdate.proper.isDigit⟩

/-- The instant of existing fields, before it is known to be in range. -/
def Fields.toInstant (f : Fields) : Instant :=
  ⟨CivilDate.dayNumber ⟨f.year, f.month, f.day⟩ * 86400 +
    (f.hour * 3600 + f.minute * 60 + f.second : ℕ) - f.zone, f.millis * 1000000⟩

section Fields

variable {f : Fields} {t : Instant}

/-- A date is taken for one exactly if it is a day of the calendar. -/
theorem Fields.Proper.isValid_iff (h : f.Proper) :
    (⟨f.year, f.month, f.day⟩ : CivilDate).isValid ↔ CivilDate.Exists ⟨f.year, f.month, f.day⟩ := by
  have hyear := h.year_lt
  unfold CivilDate.isValid CivilDate.minYear CivilDate.maxYear
  simp only [Bool.and_eq_true, decide_eq_true_eq]
  constructor
  · rintro ⟨⟨⟨⟨-, hmonth⟩, hmonth'⟩, hday⟩, hday'⟩
    exact ⟨hmonth, hmonth', hday, hday'⟩
  · rintro ⟨hmonth, hmonth', hday, hday'⟩
    exact ⟨⟨⟨⟨⟨by omega, by omega⟩, hmonth⟩, hmonth'⟩, hday⟩, hday'⟩

/-- Years of four digits are far from the limits. -/
theorem Fields.Exists.inRange (h : f.Exists) (hproper : f.Proper) : f.toInstant.inRange := by
  have hmin : CivilDate.minDayNumber = -96465292 := by decide
  have hmax : CivilDate.maxDayNumber = 95026236 := by decide
  have hyear := hproper.year_lt
  obtain ⟨hlow, hhigh⟩ := h.date.dayNumber_bounds
  simp only [CivilDate.daysBeforeYear, CivilDate.leapYearsBefore] at hlow hhigh
  have htime : f.hour * 3600 + f.minute * 60 + f.second < 86400 := by
    have := h.hour_lt
    have := h.minute_lt
    have := h.second_lt
    omega
  have hzone := h.zone_lt
  simp only [Instant.inRange, toInstant, hmin, hmax, Bool.and_eq_true, decide_eq_true_eq]
  omega

/-- Fields denote an instant exactly if they are those of a day and a time that exist. -/
theorem Fields.Proper.instant?_eq_some_iff (h : f.Proper) :
    f.instant? = some t ↔ f.Exists ∧ t = f.toInstant := by
  unfold instant?
  rw [h.millis?]
  dsimp only
  constructor
  · intro ht
    split at ht
    · next hsecond =>
      unfold Instant.ofCivil? at ht
      split at ht
      · next hcivil =>
        simp only [Bool.and_eq_true, decide_eq_true_eq] at hcivil
        obtain ⟨⟨⟨⟨hdate, hhour⟩, hminute⟩, -⟩, hzone⟩ := hcivil
        have hexists : f.Exists := ⟨h.isValid_iff.mp hdate, hhour, hminute, hsecond, by omega⟩
        refine ⟨hexists, ?_⟩
        simp only [hsecond.ne, if_false] at ht
        split at ht
        · exact (Option.some.inj ht).symm
        · cases ht
      · cases ht
    · cases ht
  · rintro ⟨hexists, rfl⟩
    have hsecond := hexists.second_lt
    have hzone := hexists.zone_lt
    have hcivil : (⟨f.year, f.month, f.day⟩ : CivilDate).isValid && f.hour < 24 && f.minute < 60 &&
        f.second ≤ 60 && (-86400 < f.zone && f.zone < 86400) := by
      simp only [Bool.and_eq_true, decide_eq_true_eq]
      exact ⟨⟨⟨⟨h.isValid_iff.mpr hexists.date, hexists.hour_lt⟩, hexists.minute_lt⟩, by omega⟩,
        by omega, by omega⟩
    rw [if_pos hsecond, Instant.ofCivil?, if_pos hcivil]
    simp only [hsecond.ne, if_false]
    exact if_pos (hexists.inRange h)

theorem Fields.Proper.eq_toInstant_iff (h : f.Proper) : t = f.toInstant ↔ t.isWholeMillis ∧
    t.millis = 86400000 * CivilDate.dayNumber ⟨f.year, f.month, f.day⟩ + f.millisOfDay -
      f.zone * 1000 := by
  have hlt := h.millis_lt
  simp only [Instant.isWholeMillis, Bool.and_eq_true, beq_iff_eq, decide_eq_true_eq,
    Instant.millis, toInstant, millisOfDay]
  constructor
  · rintro rfl
    refine ⟨⟨by simp, by dsimp only; omega⟩, ?_⟩
    push_cast
    omega
  · obtain ⟨seconds, nanos⟩ := t
    dsimp only
    rintro ⟨⟨hwhole, hnanos⟩, hmillis⟩
    push_cast at hmillis
    simp only [Instant.mk.injEq]
    push_cast
    omega

end Fields

/-- **The ISO dates and their instants.**  A text is read if and only if it is a date of some
precision with a zone, and the date, the time of day and the zone exist.  The instant, counted in
milliseconds, is that of the date's midnight plus the time of day minus the zone's offset. -/
theorem instant?_eq_some_iff_spells {cs : List Char} (hascii : ∀ c ∈ cs, c.toNat < 128)
    {t : Instant} :
    instant? cs = some t ↔ ∃ f days, Spells cs f ∧ f.Exists ∧
      CivilDate.Reckoned ⟨f.year, f.month, f.day⟩ days ∧ t.isWholeMillis ∧
      t.millis = 86400000 * days + f.millisOfDay - f.zone * 1000 := by
  simp only [instant?, Option.bind_eq_some_iff, fields?_eq_some_iff hascii, CivilDate.reckoned_iff]
  constructor
  · rintro ⟨f, hf, ht⟩
    obtain ⟨hexists, ht⟩ := hf.proper.instant?_eq_some_iff.mp ht
    exact ⟨f, _, hf, hexists, ⟨hexists.date, rfl⟩, hf.proper.eq_toInstant_iff.mp ht⟩
  · rintro ⟨f, _, hf, hexists, ⟨-, rfl⟩, ht⟩
    exact ⟨f, hf, hf.proper.instant?_eq_some_iff.mpr ⟨hexists, hf.proper.eq_toInstant_iff.mpr ht⟩⟩

/-- A zone after a month, which looks like a day at first. -/
theorem instant?_eq_some_iff_spells_west :
    (∀ c ∈ "2012-02-0230".toList, c.toNat < 128) ∧
      ∃ f days, Spells "2012-02-0230".toList f ∧ f.Exists ∧
        CivilDate.Reckoned ⟨f.year, f.month, f.day⟩ days ∧
        (1328063400000 : ℤ) = 86400000 * days + f.millisOfDay - f.zone * 1000 := by
  have hascii : ∀ c ∈ "2012-02-0230".toList, c.toNat < 128 := by simp
  have hread : instant? "2012-02-0230".toList = some ⟨1328063400, 0⟩ := by decide +kernel
  obtain ⟨f, days, hf, hexists, hdays, -, ht⟩ := (instant?_eq_some_iff_spells hascii).mp hread
  exact ⟨hascii, f, days, hf, hexists, hdays, ht⟩

end IsoDate

end ResourceQuery
