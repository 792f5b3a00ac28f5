import ResourceQuery.Error
import ResourceQuery.Number.Literal
import ResourceQuery.Text.Percent
import ResourceQuery.Time.DateText
import ResourceQuery.Value

/-!
# Converters

A converter turns the text of a word into a value.  The built-in ones first undo
percent encoding.

## Main definitions

* `Converter`: from text to a value, or an error.
* `Converter.literal`: what text denotes when no converter is named.
* `Converter.auto`, `string`, `number`, `boolean`, `epoch`, `isodate`, `date`,
  `re`, `glob`: the built-in converters.
-/

namespace ResourceQuery

/-- A function from the text of a word to a value. -/
abbrev Converter := String → Except Error Value

namespace Converter

/-- Take off one pair of single quotes. -/
def unquote (s : String) : String :=
  match s.toList with
  | '\x27' :: rest => if rest.getLast? = some '\x27' then String.ofList rest.dropLast else s
  | _ => s

/-- The words that denote a value of their own. -/
def reserved : List (String × Value) :=
  [("true", .bool true), ("false", .bool false), ("null", .null), ("undefined", .undefined),
    ("Infinity", .number (.float (Binary64.infinity false))),
    ("-Infinity", .number (.float (Binary64.infinity true)))]

/-- What decoded text denotes when no converter is named: a reserved word, a
number, or else the text itself, after one pair of single quotes is taken off. -/
def literal (text : String) : Value :=
  let text := unquote text
  match reserved.lookup text with
  | some v => v
  | none =>
    match Literal.number? text.toList with
    | some n => .number n
    | none => .string text

/-- The built-in default. -/
def auto : Converter := fun token => .ok (literal (Percent.decode token))

/-- Always a string. -/
def string : Converter := fun token => .ok (.string (Percent.decode token))

/-- Numeric literals and the two infinities. -/
def number : Converter := fun token =>
  let text := Percent.decode token
  if text = "Infinity" then .ok (.number (.float (Binary64.infinity false)))
  else if text = "-Infinity" then .ok (.number (.float (Binary64.infinity true)))
  else
    match Literal.number? text.toList with
    | some n => .ok (.number n)
    | none => .error (.invalidValue "number" token)

/-- True for `true` and `1`, false for every other text. -/
def boolean : Converter := fun token =>
  let text := Percent.decode token
  .ok (.bool (text = "true" || text = "1"))

/-- A converter that reads a date. -/
def dated (name : String) (read : List Char → Option Instant) : Converter := fun token =>
  match read (Percent.decode token).toList with
  | some t => .ok (.date t)
  | none => .error (.invalidValue name token)

/-- Milliseconds since the start of 1970. -/
def epoch : Converter :=
  dated "epoch" fun cs => (Literal.int64? cs).bind fun n => Instant.ofMillis? n.toInt

/-- ISO dates of any precision. -/
def isodate : Converter := dated "isodate" IsoDate.instant?

/-- Free-form dates. -/
def date : Converter := dated "date" DateText.instant?

/-- A regular expression. -/
def re : Converter := fun token => .ok (.pattern (Pattern.ofText (Percent.decode token)))

/-- A glob. -/
def glob : Converter := fun token => .ok (.pattern (Pattern.ofGlob (Percent.decode token)))

end Converter

end ResourceQuery
