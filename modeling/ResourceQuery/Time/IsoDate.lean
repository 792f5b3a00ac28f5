import ResourceQuery.Time.Instant
import ResourceQuery.Text.DecimalDigit

/-!
# ISO dates of any precision

`YYYY[-MM[-DD[Thh[:mm[:ss[.f…]]]]]]` and an optional zone, `Z` or a sign with
`hh:mm` or `hhmm`.  What is left out takes its least value, and no zone means
UTC.  A `-` with two digits can begin a month, a day or a zone: the longer date
is tried first, and the zone reading only if the text cannot be completed that
way.

## Main definitions

* `IsoDate.Fields`: the fields of such a text.
* `IsoDate.fields?`: reading them.
* `IsoDate.instant?`: the instant, if the date and the time of day exist.
-/

namespace ResourceQuery

namespace IsoDate

/-- The fields of an ISO date.  The fraction is kept as its digits. -/
structure Fields where
  year : Nat
  month : Nat := 1
  day : Nat := 1
  hour : Nat := 0
  minute : Nat := 0
  second : Nat := 0
  fraction : List Char := []
  /-- Seconds east of Greenwich. -/
  zone : Int := 0

/-- The number that two digits spell. -/
def pair? (a b : Char) : Option Nat :=
  if a.isDigit && b.isDigit then some (Nat.ofDigitChars 10 [a, b] 0) else none

/-- The zone `hhmm`, in seconds east or west of Greenwich. -/
def offset? (sign a b c d : Char) : Option Int :=
  match pair? a b, pair? c d with
  | some h, some m =>
    if sign = '+' then some (h * 3600 + m * 60)
    else if sign = '-' then some (-(h * 3600 + m * 60))
    else none
  | _, _ => none

/-- Read a zone that ends the text, or the end of the text. -/
def zone? : List Char → Option Int
  | [] => some 0
  | ['Z'] => some 0
  | [sign, a, b, c, d] => offset? sign a b c d
  | [sign, a, b, ':', c, d] => offset? sign a b c d
  | _ => none

/-- End the fields with a zone. -/
def atZone? (f : Fields) (cs : List Char) : Option Fields :=
  (zone? cs).map fun z => { f with zone := z }

/-- After the seconds: a fraction and a zone. -/
def afterSecond? (f : Fields) : List Char → Option Fields
  | '.' :: cs =>
    let (digits, rest) := cs.span Text.isDecimalDigit
    if digits.isEmpty then none else atZone? { f with fraction := digits } rest
  | cs => atZone? f cs

/-- After the minutes: seconds, or a zone. -/
def afterMinute? (f : Fields) : List Char → Option Fields
  | ':' :: a :: b :: cs => (pair? a b).bind fun n => afterSecond? { f with second := n } cs
  | cs => atZone? f cs

/-- After the hours: minutes, or a zone. -/
def afterHour? (f : Fields) : List Char → Option Fields
  | ':' :: a :: b :: cs => (pair? a b).bind fun n => afterMinute? { f with minute := n } cs
  | cs => atZone? f cs

/-- After the day: hours, or a zone. -/
def afterDay? (f : Fields) : List Char → Option Fields
  | 'T' :: a :: b :: cs => (pair? a b).bind fun n => afterHour? { f with hour := n } cs
  | cs => atZone? f cs

/-- After the month: a day, or a zone if the text has no reading with a day. -/
def afterMonth? (f : Fields) (cs : List Char) : Option Fields :=
  (match cs with
    | '-' :: a :: b :: rest => (pair? a b).bind fun n => afterDay? { f with day := n } rest
    | _ => none).or (atZone? f cs)

/-- After the year: a month, or a zone if the text has no reading with a month. -/
def afterYear? (f : Fields) (cs : List Char) : Option Fields :=
  (match cs with
    | '-' :: a :: b :: rest => (pair? a b).bind fun n => afterMonth? { f with month := n } rest
    | _ => none).or (atZone? f cs)

/-- The fields of an ISO date. -/
def fields? : List Char → Option Fields
  | a :: b :: c :: d :: cs =>
    match pair? a b, pair? c d with
    | some x, some y => afterYear? { year := 100 * x + y } cs
    | _, _ => none
  | _ => none

/-- The milliseconds of a fraction: its first three digits, padded with zeros.
Of these digits only ASCII ones can be read. -/
def millis? (fraction : List Char) : Option Nat :=
  let digits := (fraction ++ ['0', '0', '0']).take 3
  if digits.all Char.isDigit then some (Nat.ofDigitChars 10 digits 0) else none

/-- The instant the fields denote, if the date and the time of day exist; there
are no leap seconds in this form. -/
def Fields.instant? (f : Fields) : Option Instant :=
  match millis? f.fraction with
  | some ms =>
    if f.second < 60 then
      Instant.ofCivil? ⟨f.year, f.month, f.day⟩ ⟨f.hour, f.minute, f.second, ms * 1000000⟩ f.zone
    else none
  | none => none

/-- The instant of an ISO date. -/
def instant? (text : List Char) : Option Instant :=
  (fields? text).bind Fields.instant?

end IsoDate

end ResourceQuery
