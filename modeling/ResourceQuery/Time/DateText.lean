import ResourceQuery.Time.IsoDate
import ResourceQuery.Text.Blank

/-!
# Dates as people write them

A free-form date is tried against five notations in turn: the ISO form of any
precision, RFC 3339, RFC 2822 (also with a zone written `GMT+hhmm`), and two
lists of layouts such as `Dec 25, 1995` and `2012-12-18 02:50`.  Every notation
is a small reader that consumes the text from the left; what a notation reads
must be the whole text.

## Main definitions

* `DateText.Reader`: a partial reader of the front of a text.
* `DateText.rfc3339?`, `DateText.rfc2822?`: the two standard notations.
* `DateText.Layout`: a notation given as a list of directives.
* `DateText.instant?`: the instant of a free-form date.
-/

namespace ResourceQuery

namespace DateText

/-- A reader consumes the front of a text, or refuses it. -/
abbrev Reader := StateT (List Char) Option

/-- Run a reader that has to consume the whole text. -/
def Reader.whole? {α : Type} (r : Reader α) (cs : List Char) : Option α :=
  match r.run cs with
  | some (a, []) => some a
  | _ => none

/-- Skip white space. -/
def skipBlanks : Reader Unit :=
  modify Text.trimStart

/-- Skip white space, of which there has to be some. -/
def someBlanks : Reader Unit := fun cs =>
  match cs with
  | c :: rest => if Text.isBlank c then some ((), Text.trimStart rest) else none
  | [] => none

/-- Consume one given character. -/
def mark (c : Char) : Reader Unit := fun cs =>
  match cs with
  | d :: rest => if d = c then some ((), rest) else none
  | [] => none

/-- Consume a given character if it is there, and say whether it was. -/
def optionalMark (c : Char) : Reader Bool := fun cs =>
  match cs with
  | d :: rest => if d = c then some (true, rest) else some (false, cs)
  | [] => some (false, [])

/-- The text still to be read. -/
def rest : Reader (List Char) := get

/-- Consume decimal digits, at most `most` of them if that is given. -/
def digitRun (most : Option Nat) : Reader (List Char) := fun cs =>
  let run := cs.takeWhile Char.isDigit
  let run := match most with
    | some n => run.take n
    | none => run
  some (run, cs.drop run.length)

/-- The number of at least `least` and at most `most` digits. -/
def number (least : Nat) (most : Option Nat) : Reader Nat := do
  let run ← digitRun most
  if run.length < least then failure
  return Nat.ofDigitChars 10 run 0

/-- The number of exactly two digits. -/
def twoDigits : Reader Nat := number 2 (some 2)

/-- Nanoseconds written after a point: nine digits count, further ones are
skipped. -/
def nanosAfterPoint : Reader Nat := do
  let run ← digitRun none
  if run.isEmpty then failure
  return Nat.ofDigitChars 10 ((run ++ List.replicate 9 '0').take 9) 0

/-- An optional point with nanoseconds after it. -/
def optionalNanos : Reader Nat := do
  if ← optionalMark '.' then nanosAfterPoint else return 0

/-- The rest of a text that starts with a word, in either case. -/
def afterWord? : List Char → List Char → Option (List Char)
  | [], cs => some cs
  | w :: ws, c :: cs => if c.toLower = w then afterWord? ws cs else none
  | _ :: _, [] => none

/-- The index of the first listed word that the text starts with; the word is
consumed. -/
def oneOfWords (words : List String) : Reader Nat := fun cs =>
  words.zipIdx.findSome? fun (w, i) => (afterWord? w.toList cs).map (i, ·)

/-- The abbreviated names of the months. -/
def shortMonths : List String :=
  ["jan", "feb", "mar", "apr", "may", "jun", "jul", "aug", "sep", "oct", "nov", "dec"]

/-- What the full names of the months add to the abbreviated ones. -/
def monthEndings : List String :=
  ["uary", "ruary", "ch", "il", "", "e", "y", "ust", "tember", "ober", "ember", "ember"]

/-- The abbreviated names of the days, from Monday. -/
def shortDays : List String := ["mon", "tue", "wed", "thu", "fri", "sat", "sun"]

/-- The number of an abbreviated month. -/
def shortMonth : Reader Nat := do
  return (← oneOfWords shortMonths) + 1

/-- The number of an abbreviated or a full month. -/
def longMonth : Reader Nat := do
  let month ← shortMonth
  modify fun cs => (afterWord? (monthEndings.getD (month - 1) "").toList cs).getD cs
  return month

/-! ## Zones -/

/-- A zone's hours and minutes after its sign, with or without a colon. -/
def clockOffset (colon : Bool) : Reader Int := do
  let hours ← twoDigits
  if colon then mark ':'
  let minutes ← twoDigits
  if 60 ≤ minutes then failure
  return hours * 3600 + minutes * 60

/-- A signed zone; the minus sign proper, U+2212, is accepted on request. -/
def signedOffset (colon minusSign : Bool) : Reader Int := do
  match ← rest with
  | '+' :: cs => set cs; clockOffset colon
  | '-' :: cs => set cs; return -(← clockOffset colon)
  | c :: cs =>
    if c.toNat = 0x2212 && minusSign then
      set cs
      return -(← clockOffset colon)
    else failure
  | [] => failure

/-- The zones that RFC 2822 knows by name, in hours. -/
def namedZones : List (String × Int) :=
  [("gmt", 0), ("ut", 0), ("z", 0), ("edt", -4), ("est", -5), ("cdt", -5), ("cst", -6),
    ("mdt", -6), ("mst", -7), ("pdt", -7), ("pst", -8)]

/-- The offset of a named zone.  The military letters, which leave out `J`, say
nothing about the zone and count as UTC. -/
def namedOffset? (name : List Char) : Option Int :=
  let name := name.map Char.toLower
  match namedZones.find? fun z => z.1.toList = name with
  | some z => some (z.2 * 3600)
  | none =>
    match name with
    | [c] => if c ≠ 'j' then some 0 else none
    | _ => none

/-- A zone by name or by its offset. -/
def mailZone : Reader Int := do
  let cs ← rest
  let name := cs.takeWhile Char.isAlpha
  if name.isEmpty then signedOffset false false
  else
    match namedOffset? name with
    | some offset => set (cs.drop name.length); return offset
    | none => failure

/-! ## RFC 3339 -/

/-- A full date, a full time and a zone: `2012-12-18T10:26:59.5+02:00`. -/
def rfc3339 : Reader (Option Instant) := do
  let year ← number 4 (some 4)
  mark '-'
  let month ← twoDigits
  mark '-'
  let day ← twoDigits
  match ← rest with
  | c :: cs => if c = 'T' ∨ c = 't' ∨ c = ' ' then set cs else failure
  | [] => failure
  let hour ← twoDigits
  mark ':'
  let minute ← twoDigits
  mark ':'
  let second ← twoDigits
  let nanos ← optionalNanos
  let zone ←
    match ← rest with
    | 'Z' :: cs => set cs; pure 0
    | 'z' :: cs => set cs; pure 0
    | _ => signedOffset true true
  return Instant.ofCivil? ⟨year, month, day⟩ ⟨hour, minute, second, nanos⟩ zone

/-- The instant of a text in RFC 3339 notation. -/
def rfc3339? (cs : List Char) : Option Instant :=
  (rfc3339.whole? cs).join

/-! ## RFC 2822 -/

/-- The rest of a text after a comment in `depth` open parentheses; a backslash
takes the character after it as it is. -/
def afterComment? : Nat → List Char → Option (List Char)
  | 0, cs => some cs
  | _ + 1, [] => none
  | depth + 1, '\\' :: _ :: cs => afterComment? (depth + 1) cs
  | depth + 1, '(' :: cs => afterComment? (depth + 2) cs
  | depth + 1, ')' :: cs => afterComment? depth cs
  | depth + 1, _ :: cs => afterComment? (depth + 1) cs

/-- The rest of a text after at most `most` parenthesized comments, with white
space before each. -/
def dropComments : Nat → List Char → List Char
  | 0, cs => cs
  | most + 1, cs =>
    match Text.trimStart cs with
    | '(' :: inner =>
      match afterComment? 1 inner with
      | some outer => dropComments most outer
      | none => cs
    | _ => cs

/-- A year of two digits lies between 1950 and 2049, one of three digits counts
from 1900. -/
def fullYear (digits : Nat) (year : Nat) : Nat :=
  if digits = 2 then if year < 50 then year + 2000 else year + 1900
  else if digits = 3 then year + 1900
  else year

/-- The day of the week before a date, with its comma. -/
def optionalDay : Reader (Option Nat) := do
  match (oneOfWords shortDays).run (← rest) with
  | some (day, cs) => set cs; mark ','; return some day
  | none => return none

/-- The date of mail headers: `Mon, 25 Dec 1995 13:30:00 +0430`. -/
def rfc2822 : Reader (Option Instant) := do
  skipBlanks
  let weekday ← optionalDay
  skipBlanks
  let day ← number 1 (some 2)
  someBlanks
  let month ← shortMonth
  someBlanks
  let before := (← rest).length
  let year ← number 2 none
  let year := fullYear (before - (← rest).length) year
  someBlanks
  let hour ← twoDigits
  skipBlanks
  mark ':'
  skipBlanks
  let minute ← twoDigits
  let second ←
    match Text.trimStart (← rest) with
    | ':' :: cs => set cs; twoDigits
    | _ => pure 0
  someBlanks
  let zone ← mailZone
  modify fun cs => dropComments cs.length cs
  let date : CivilDate := ⟨year, month, day⟩
  if weekday.any (· ≠ date.weekday) then return none
  return Instant.ofCivil? date ⟨hour, minute, second, 0⟩ zone

/-- The instant of a text in RFC 2822 notation. -/
def rfc2822? (cs : List Char) : Option Instant :=
  (rfc2822.whole? cs).join

/-- The text starts with a sign and four digits. -/
def startsWithOffset : List Char → Bool
  | sign :: a :: b :: c :: d :: _ =>
    (sign = '+' || sign = '-') && [a, b, c, d].all Text.isDecimalDigit
  | _ => false

/-- Drop the first `GMT` or `UTC` that a numeric zone follows, with the white
space between them. -/
def dropZoneName : List Char → List Char
  | [] => []
  | c :: cs =>
    match c :: cs with
    | 'G' :: 'M' :: 'T' :: after | 'U' :: 'T' :: 'C' :: after =>
      if startsWithOffset (Text.trimStart after) then Text.trimStart after
      else c :: dropZoneName cs
    | _ => c :: dropZoneName cs

/-! ## Layouts -/

/-- One step of a layout. -/
inductive Directive where
  | year
  | month
  | monthName
  | fullMonthName
  | day
  | hour
  | minute
  | second
  | fraction
  /-- White space, possibly none. -/
  | blanks
  | symbol (c : Char)

/-- A notation as the list of what is read from left to right. -/
abbrev Layout := List Directive

/-- The fields a layout has read so far. -/
structure Fields where
  year : Int := 0
  month : Nat := 1
  day : Nat := 1
  hour : Nat := 0
  minute : Nat := 0
  second : Nat := 0
  nanos : Nat := 0

/-- A year: any number of digits after a sign, at most four without one. -/
def signedYear : Reader Int := do
  skipBlanks
  match ← rest with
  | '-' :: cs => set cs; return -((← number 1 none : Nat) : Int)
  | '+' :: cs => set cs; return (← number 1 none : Nat)
  | _ => return (← number 1 (some 4) : Nat)

/-- One or two digits, after any white space. -/
def oneOrTwoDigits : Reader Nat := do
  skipBlanks
  number 1 (some 2)

/-- Read one step of a layout. -/
def Directive.read (f : Fields) : Directive → Reader Fields
  | year => return { f with year := ← signedYear }
  | month => return { f with month := ← oneOrTwoDigits }
  | monthName => return { f with month := ← shortMonth }
  | fullMonthName => return { f with month := ← longMonth }
  | day => return { f with day := ← oneOrTwoDigits }
  | hour => return { f with hour := ← oneOrTwoDigits }
  | minute => return { f with minute := ← oneOrTwoDigits }
  | second => return { f with second := ← oneOrTwoDigits }
  | fraction => return { f with nanos := ← optionalNanos }
  | blanks => do skipBlanks; return f
  | symbol c => do mark c; return f

/-- Read a text in a layout. -/
def Layout.read (f : Fields) : Layout → Reader Fields
  | [] => return f
  | d :: ds => do Layout.read (← d.read f) ds

/-- The instant of a text in a layout, taken as UTC. -/
def Layout.instant? (layout : Layout) (cs : List Char) : Option Instant :=
  match (Layout.read {} layout).whole? cs with
  | some f =>
    Instant.ofCivil? ⟨f.year, f.month, f.day⟩ ⟨f.hour, f.minute, f.second, f.nanos⟩ 0
  | none => none

open Directive

/-- Hours and minutes. -/
def hourMinute : Layout := [hour, symbol ':', minute]

/-- Hours, minutes and seconds. -/
def hourMinuteSecond : Layout := hourMinute ++ [symbol ':', second]

/-- Year, month and day with a separator. -/
def yearFirst (separator : Char) : Layout := [year, symbol separator, month, symbol separator, day]

/-- Month, day and year with slashes. -/
def monthFirst : Layout := [month, symbol '/', day, symbol '/', year]

/-- The layouts of a date with a time of day, in the order they are tried. -/
def dateTimeLayouts : List Layout :=
  [yearFirst '-' ++ blanks :: hourMinuteSecond ++ [fraction],
    yearFirst '-' ++ blanks :: hourMinuteSecond,
    yearFirst '-' ++ blanks :: hourMinute,
    yearFirst '/' ++ blanks :: hourMinuteSecond,
    yearFirst '/' ++ blanks :: hourMinute,
    monthFirst ++ blanks :: hourMinuteSecond,
    monthFirst ++ blanks :: hourMinute,
    [monthName, blanks, day, blanks, year, blanks] ++ hourMinuteSecond,
    [monthName, blanks, day, blanks, year, blanks] ++ hourMinute,
    [fullMonthName, blanks, day, blanks, year, blanks] ++ hourMinuteSecond,
    [fullMonthName, blanks, day, blanks, year, blanks] ++ hourMinute,
    [day, blanks, monthName, blanks, year, blanks] ++ hourMinuteSecond,
    [day, blanks, monthName, blanks, year, blanks] ++ hourMinute]

/-- The layouts of a date alone, in the order they are tried. -/
def dateLayouts : List Layout :=
  [yearFirst '/',
    monthFirst,
    [monthName, blanks, day, blanks, year],
    [fullMonthName, blanks, day, blanks, year],
    [day, blanks, monthName, blanks, year],
    [day, blanks, fullMonthName, blanks, year]]

/-- Commas count as white space, and white space between words as one blank. -/
def evenlySpaced (cs : List Char) : List Char :=
  [' '].intercalate (Text.words (cs.map fun c => if c = ',' then ' ' else c))

/-- The instant of a free-form date. -/
def instant? (text : List Char) : Option Instant :=
  let cs := Text.trim text
  ((IsoDate.instant? cs).or (rfc3339? cs)).or
    ((rfc2822? (dropZoneName cs)).or
      ((dateTimeLayouts ++ dateLayouts).findSome? (Layout.instant? · (evenlySpaced cs))))

end DateText

end ResourceQuery
