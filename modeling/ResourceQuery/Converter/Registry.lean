import ResourceQuery.Converter.Basic
import ResourceQuery.Text.Quoted

/-!
# Registries

A registry names the converters a parser can use.  A word `name:body` is handed
to the converter of that name, and any other word to the default converter.

## Main definitions

* `Registry`: names with their converters, each name once.
* `Registry.builtin`: the built-in converters.
* `Registry.register`, `Registry.remove`, `Registry.find?`.
* `Registry.convert`: convert a word.
* `Registry.summary`: one line with the names.
-/

namespace ResourceQuery

/-- Converters by name. -/
structure Registry where
  entries : List (String × Converter)

namespace Registry

/-- No converter at all. -/
def empty : Registry := ⟨[]⟩

/-- The built-in converters. -/
def builtin : Registry :=
  ⟨[("auto", Converter.auto), ("string", Converter.string), ("number", Converter.number),
    ("boolean", Converter.boolean), ("null", fun _ => .ok .null),
    ("undefined", fun _ => .ok .undefined), ("epoch", Converter.epoch),
    ("isodate", Converter.isodate), ("date", Converter.date), ("re", Converter.re),
    ("glob", Converter.glob)]⟩

/-- The converter of a name. -/
def find? (r : Registry) (name : String) : Option Converter :=
  r.entries.lookup name

def contains (r : Registry) (name : String) : Bool :=
  (r.find? name).isSome

/-- Forget a name. -/
def remove (r : Registry) (name : String) : Registry :=
  ⟨r.entries.filter fun e => e.1 != name⟩

/-- Give a name a converter, in place of the one it had. -/
def register (r : Registry) (name : String) (c : Converter) : Registry :=
  ⟨(name, c) :: (r.remove name).entries⟩

/-- The names, in the order of their characters. -/
def names (r : Registry) : List String :=
  (r.entries.map (·.1)).mergeSort fun a b => a ≤ b

/-- A line that lists the names. -/
def summary (r : Registry) : String :=
  "ConverterRegistry \x7b converters: " ++ Text.bracketed "[" "]" r.names ++ " \x7d"

/-- The name before the first colon of a word and the text after it; a word
without a colon belongs to the default converter. -/
def split (defaultName word : String) : String × String :=
  match word.toList.span (· != ':') with
  | (name, _ :: body) => (String.ofList name, String.ofList body)
  | (_, []) => (defaultName, word)

/-- Convert a word. -/
def convert (r : Registry) (defaultName word : String) : Except Error Value :=
  let (name, body) := split defaultName word
  match r.find? name with
  | some c => c body
  | none => .error (.unknownConverter name)

end Registry

end ResourceQuery
