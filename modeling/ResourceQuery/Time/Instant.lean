import ResourceQuery.Number.Literal

/-!
# Instants and the civil calendar

An instant is a second since 1970-01-01T00:00:00Z and the nanoseconds within it.
A leap second has no second of its own: it lengthens the one before it, so its
nanoseconds run from `10 ^ 9`.  Civil dates follow the Gregorian rule in both
directions; their years, and so the instants, are limited to `minYear … maxYear`.

## Main definitions

* `Instant`, `Instant.millis`, `Instant.ofMillis?`.
* `CivilDate`, `CivilDate.dayNumber`, `CivilDate.weekday`.
* `Instant.ofCivil?`: the instant of a civil date, a time of day and a zone.
-/

namespace ResourceQuery

/-- A second since the start of 1970 and the nanoseconds within it; a leap
second adds `10 ^ 9` nanoseconds to the second before it. -/
structure Instant where
  seconds : Int
  nanos : Nat
deriving DecidableEq

/-- A year, a month and a day, in the Gregorian calendar. -/
structure CivilDate where
  year : Int
  month : Nat
  day : Nat
deriving DecidableEq

/-- A time of day; a leap second is the second 60. -/
structure TimeOfDay where
  hour : Nat
  minute : Nat
  second : Nat
  nanos : Nat
deriving DecidableEq

namespace CivilDate

/-- The first and the last year a date can have. -/
def minYear : Int := -262143

@[inherit_doc minYear]
def maxYear : Int := 262142

/-- A year of 366 days. -/
def isLeapYear (year : Int) : Bool :=
  year % 4 == 0 && (year % 100 != 0 || year % 400 == 0)

/-- The number of days of a month. -/
def daysInMonth (year : Int) (month : Nat) : Nat :=
  if month = 2 then if isLeapYear year then 29 else 28
  else if month = 4 ∨ month = 6 ∨ month = 9 ∨ month = 11 then 30
  else 31

/-- The date exists, and its year is within the limits. -/
def isValid (d : CivilDate) : Bool :=
  minYear ≤ d.year && d.year ≤ maxYear && 1 ≤ d.month && d.month ≤ 12 &&
    1 ≤ d.day && d.day ≤ daysInMonth d.year d.month

/-- The number of leap years before a year, counted from the year 1. -/
def leapYearsBefore (year : Int) : Int :=
  (year - 1) / 4 - (year - 1) / 100 + (year - 1) / 400

/-- The number of days before the first of January of a year, counted from the
start of 1970. -/
def daysBeforeYear (year : Int) : Int :=
  365 * (year - 1970) + leapYearsBefore year - leapYearsBefore 1970

/-- The number of days of a year before the first of a month. -/
def daysBeforeMonth (year : Int) (month : Nat) : Nat :=
  (List.range (month - 1)).foldl (fun days m => days + daysInMonth year (m + 1)) 0

/-- The number of days since the start of 1970. -/
def dayNumber (d : CivilDate) : Int :=
  daysBeforeYear d.year + daysBeforeMonth d.year d.month + d.day - 1

/-- The day of the week, Monday being 0: the first of January 1970 was a
Thursday. -/
def weekday (d : CivilDate) : Nat :=
  ((d.dayNumber + 3) % 7).toNat

/-- The numbers of the first and the last day a date can have. -/
def minDayNumber : Int := daysBeforeYear minYear

@[inherit_doc minDayNumber]
def maxDayNumber : Int := daysBeforeYear (maxYear + 1) - 1

end CivilDate

namespace Instant

/-- Milliseconds since the start of 1970; a leap second counts on past the
thousand milliseconds of the second before it. -/
def millis (t : Instant) : Int :=
  t.seconds * 1000 + t.nanos / 1000000

/-- The instant lies in a year that a date can have. -/
def inRange (t : Instant) : Bool :=
  CivilDate.minDayNumber ≤ t.seconds / 86400 && t.seconds / 86400 ≤ CivilDate.maxDayNumber

/-- The instant of a count of milliseconds. -/
def ofMillis? (n : Int) : Option Instant :=
  let t : Instant := ⟨n / 1000, (n % 1000).toNat * 1000000⟩
  if t.inRange then some t else none

/-- The instant of a date and a time of day in a zone `offset` seconds east of
Greenwich.  The zone lies within a day on either side. -/
def ofCivil? (date : CivilDate) (time : TimeOfDay) (offset : Int) : Option Instant :=
  if date.isValid && time.hour < 24 && time.minute < 60 && time.second ≤ 60 &&
      (-86400 < offset && offset < 86400) then
    let leap := time.second = 60
    let second := if leap then 59 else time.second
    let t : Instant :=
      ⟨date.dayNumber * 86400 + (time.hour * 3600 + time.minute * 60 + second : Nat) - offset,
        if leap then time.nanos + 1000000000 else time.nanos⟩
    if t.inRange then some t else none
  else none

end Instant

end ResourceQuery
