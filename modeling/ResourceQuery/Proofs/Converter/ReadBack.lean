import Mathlib.Data.List.TakeWhile
import ResourceQuery.CanonicalText
import ResourceQuery.Proofs.Number.ReadBack
import ResourceQuery.Proofs.Text.Percent
import ResourceQuery.Proofs.Time.Range

/-!
# Values read back

The canonical text of a value is one word, and the built-in converters turn that word into an
equal value.  This holds for the values that the built-in converters can give, of which the
dates have to be whole milliseconds: canonical text counts milliseconds.  Equal values can differ
only if they are numbers, so that exact values come back as they were.

## Main definitions

* `Value.isReadable`: a value that a built-in converter can give
* `Value.isTimely`: a date is a whole number of milliseconds, and no leap second
* `Value.isExact`: a value that is neither a double nor a date

## Main results

* `Registry.isReadable_of_convert`: the built-in converters give readable values only
* `Registry.readsAs_canonical`: the canonical text of a readable value denotes an equal value
* `Registry.convert_canonical`: the canonical text of an exact value denotes that value
-/

namespace ResourceQuery

namespace Value

/-- A value that a built-in converter can give. -/
def isReadable : Value → Bool
  | null | undefined | bool _ | string _ | number (.int _) => true
  | number (.float x) => !x.isNaN
  | date t => t.inRange
  | pattern p => p.flags.toList.all Pattern.isFlag
  | array _ | object _ | host _ => false

/-- A date, if the value is one, is a whole number of milliseconds and no leap second. -/
def isTimely : Value → Bool
  | date t => t.isWholeMillis
  | _ => true

end Value

/-! ## What the built-in converters give -/

namespace Literal

/-- A number that is read is no `NaN`, so it is readable. -/
theorem isReadable_of_number? {cs : List Char} {n : Number} (h : number? cs = some n) :
    (Value.number n).isReadable := by
  unfold number? at h
  split at h
  · next hhex =>
    cases h
    unfold hexadecimal? at hhex
    split at hhex
    · split at hhex
      · cases hhex; rfl
      · cases hhex
    · cases hhex
  · obtain ⟨p, -, rfl⟩ := Option.map_eq_some_iff.mp h
    have hfloat : (Value.number (.float p.toBinary64)).isReadable := by
      simp [Value.isReadable, Parts.toBinary64_eq, Binary64.isNaN_ofMagnitude]
    unfold Parts.toNumber
    split
    · split
      · rfl
      · exact hfloat
    · exact hfloat

end Literal

namespace Converter

theorem isReadable_reserved {s : String} {v : Value} (h : reserved.lookup s = some v) :
    v.isReadable := by
  have hall : ∀ e ∈ reserved, e.2.isReadable := by decide
  obtain ⟨before, after, hsplit, -⟩ := List.lookup_eq_some_iff.mp h
  exact hall (s, v) (by rw [hsplit]; simp)

theorem isReadable_literal (s : String) : (literal s).isReadable := by
  unfold literal
  dsimp only
  split
  · next h => exact isReadable_reserved h
  · split
    · next h => exact Literal.isReadable_of_number? h
    · rfl

/-- The flags of a pattern that is read are known flags. -/
theorem isFlag_ofText (s : String) : (Pattern.ofText s).flags.toList.all Pattern.isFlag := by
  unfold Pattern.ofText
  split
  · split
    · split
      · next hflags => simpa using hflags
      · rfl
    · rfl
  · rfl

/-- A converter that gives readable values only. -/
def GivesReadable (c : Converter) : Prop := ∀ w v, c w = .ok v → v.isReadable

theorem givesReadable_ok {f : String → Value} (h : ∀ w, (f w).isReadable) :
    GivesReadable fun w => .ok (f w) := by
  rintro w v ⟨⟩
  exact h w

theorem givesReadable_number : GivesReadable number := by
  intro w v h
  unfold number at h
  dsimp only at h
  split_ifs at h
  · obtain rfl := Except.ok.inj h
    rfl
  · obtain rfl := Except.ok.inj h
    rfl
  · split at h
    · next hn =>
      obtain rfl := Except.ok.inj h
      exact Literal.isReadable_of_number? hn
    · cases h

/-- A converter for dates gives readable values if its reader gives dates in range. -/
theorem givesReadable_dated {name : String} {read : List Char → Option Instant}
    (hread : ∀ {cs t}, read cs = some t → t.inRange) : GivesReadable (dated name read) := by
  intro w v h
  unfold dated at h
  split at h
  · next t ht =>
    obtain rfl := Except.ok.inj h
    exact hread ht
  · cases h

theorem givesReadable_epoch : GivesReadable epoch := givesReadable_dated fun h => by
  obtain ⟨n, -, hn⟩ := Option.bind_eq_some_iff.mp h
  exact Instant.inRange_of_ofMillis? hn

end Converter

namespace Registry

theorem givesReadable_builtin : ∀ e ∈ builtin.entries, Converter.GivesReadable e.2 := by
  simp only [builtin, List.forall_mem_cons, List.not_mem_nil, false_implies, implies_true, and_true]
  exact ⟨Converter.givesReadable_ok fun _ => Converter.isReadable_literal _,
    Converter.givesReadable_ok fun _ => rfl, Converter.givesReadable_number,
    Converter.givesReadable_ok fun _ => rfl, Converter.givesReadable_ok fun _ => rfl,
    Converter.givesReadable_ok fun _ => rfl, Converter.givesReadable_epoch,
    Converter.givesReadable_dated IsoDate.inRange_of_instant?,
    Converter.givesReadable_dated DateText.inRange_of_instant?,
    Converter.givesReadable_ok fun _ => Converter.isFlag_ofText _,
    Converter.givesReadable_ok fun _ => show ("i".toList.all Pattern.isFlag) = true by decide⟩

/-- **The built-in converters give readable values only.** -/
theorem isReadable_of_convert {defaultName word : String} {v : Value}
    (h : builtin.convert defaultName word = .ok v) : v.isReadable := by
  unfold convert at h
  dsimp only at h
  split at h
  · next c hc =>
    obtain ⟨before, after, hsplit, -⟩ := List.lookup_eq_some_iff.mp hc
    exact givesReadable_builtin ((split defaultName word).1, c) (by rw [hsplit]; simp) _ v h
  · cases h

/-! ## Reading canonical texts -/

theorem split_of_notMem {defaultName word : String} (h : ':' ∉ word.toList) :
    split defaultName word = (defaultName, word) := by
  have hall : ∀ c ∈ word.toList, (c != ':') = true := fun c hc =>
    bne_iff_ne.mpr (ne_of_mem_of_not_mem hc h)
  simp only [split, List.span_eq_takeWhile_dropWhile, List.dropWhile_eq_nil_iff.mpr hall]

/-- A tag is split off its word at the first colon. -/
theorem split_tagged {defaultName tag body : String} (h : ':' ∉ tag.toList) :
    split defaultName (tag ++ ":" ++ body) = (tag, body) := by
  have hall : ∀ c ∈ tag.toList, (c != ':') = true := fun c hc =>
    bne_iff_ne.mpr (ne_of_mem_of_not_mem hc h)
  have hlist : (tag ++ ":" ++ body).toList = tag.toList ++ ':' :: body.toList := by simp
  simp only [split, hlist, List.span_eq_takeWhile_dropWhile, List.takeWhile_append_of_pos hall,
    List.dropWhile_append_of_pos hall]
  simp

/-- A word without a colon is a literal. -/
theorem convert_of_notMem {word : String} (h : ':' ∉ word.toList) :
    builtin.convert "auto" word = .ok (Converter.literal (Percent.decode word)) := by
  simp only [convert, split_of_notMem h]
  rfl

/-- A tagged word goes to the converter of its tag. -/
theorem convert_tagged {tag : String} {c : Converter} (htag : ':' ∉ tag.toList)
    (hc : builtin.find? tag = some c) (defaultName body : String) :
    builtin.convert defaultName (tag ++ ":" ++ body) = c body := by
  simp only [convert, split_tagged htag, hc]

/-- A word that the built-in converters read as a value equal to `v`. -/
structure ReadsAs (word : String) (v : Value) : Prop where
  ne_empty : word ≠ ""
  isWordChar : ∀ c ∈ word.toList, Text.isWordChar c
  convert : ∃ u, builtin.convert "auto" word = .ok u ∧ u.eqv v = true

end Registry

namespace Converter

theorem reserved_lookup_eq_none {s : String} (h : ∀ c ∈ s.toList, Text.isDecimalChar c) :
    reserved.lookup s = none := by
  rw [List.lookup_eq_none_iff]
  have hall : reserved.all fun e => e.1.toList.any fun c => !Text.isDecimalChar c := by decide
  intro e he
  obtain ⟨c, hc, hfalse⟩ := List.any_eq_true.mp (List.all_eq_true.mp hall e he)
  rw [bne_iff_ne]
  rintro rfl
  simp [h c hc] at hfalse

theorem unquote_eq_self {s : String} (h : ∀ c ∈ s.toList, Text.isDecimalChar c) :
    unquote s = s := by
  unfold unquote
  split
  · next rest heq => exact absurd (h '\x27' (by simp [heq])) (by decide)
  · rfl

/-- The text of a number denotes that number. -/
theorem literal_eq_number {s : String} {n : Number} (h : ∀ c ∈ s.toList, Text.isDecimalChar c)
    (hn : Literal.number? s.toList = some n) : literal s = .number n := by
  simp only [literal, unquote_eq_self h, reserved_lookup_eq_none h, hn]

end Converter

namespace Pattern

/-- The flags of a pattern are what follows the last slash. -/
theorem splitLastSlash?_append {source flags : List Char} (h : '/' ∉ flags) :
    splitLastSlash? (source ++ '/' :: flags) = some (source, flags) := by
  have hall : ∀ c ∈ flags.reverse, (c != '/') = true := fun c hc =>
    bne_iff_ne.mpr (ne_of_mem_of_not_mem (List.mem_reverse.mp hc) h)
  simp [splitLastSlash?, List.span_eq_takeWhile_dropWhile, List.takeWhile_append_of_pos hall,
    List.dropWhile_append_of_pos hall]

/-- The text between slashes with the flags after it is taken apart again. -/
theorem ofText_shown {p : Pattern} (h : p.flags.toList.all isFlag) : ofText p.shown = p := by
  have hslash : '/' ∉ p.flags.toList := fun hmem =>
    absurd (List.all_eq_true.mp h '/' hmem) (by decide)
  have hlist : p.shown.toList = '/' :: (p.source.toList ++ '/' :: p.flags.toList) := by
    simp [shown]
  simp only [ofText, hlist, splitLastSlash?_append hslash, h, if_true, String.ofList_toList]

theorem ofText_source {s : String} (h : s.toList.head? ≠ some '/') : ofText s = ⟨s, ""⟩ := by
  unfold ofText
  split
  · next heq => exact absurd (by rw [heq]; rfl) h
  · rfl

end Pattern

namespace Registry

theorem encode_ne_empty {s : String} (h : s ≠ "") : Percent.encode s ≠ "" := by
  intro hempty
  apply h
  have := congrArg Percent.decode hempty
  rw [Percent.decode_encode] at this
  rw [this]
  exact Percent.decode_eq_self (by simp)

theorem isWordChar_tagged {tag : String} {body : String}
    (htag : ∀ c ∈ tag.toList, Text.isWordChar c) (hbody : ∀ c ∈ body.toList, Text.isWordChar c) :
    ∀ c ∈ (tag ++ ":" ++ body).toList, Text.isWordChar c := by
  intro c hc
  simp only [String.toList_append, List.mem_append] at hc
  rcases hc with (hc | hc) | hc
  · exact htag c hc
  · obtain rfl := List.mem_singleton.mp hc
    decide
  · exact hbody c hc

/-- A tagged word reads as what its converter gives. -/
theorem readsAs_tagged (tag : String) {body : String} {c : Converter} {u v : Value}
    (htag : tag.toList.all fun c => Text.isWordChar c && c != ':')
    (hc : builtin.find? tag = some c) (hbody : ∀ c ∈ body.toList, Text.isWordChar c)
    (hu : c body = .ok u) (huv : u.eqv v = true) : ReadsAs (tag ++ ":" ++ body) v := by
  simp only [List.all_eq_true, Bool.and_eq_true, bne_iff_ne] at htag
  have hcolon : ':' ∉ tag.toList := fun hmem => (htag ':' hmem).2 rfl
  refine ⟨?_, isWordChar_tagged (fun c hc => (htag c hc).1) hbody, u, ?_, huv⟩
  · -- The colon alone makes the word non-empty.
    intro h
    have := congrArg String.toList h
    simp at this
  · rw [convert_tagged hcolon hc, hu]

/-- A string that is written without a tag is the literal of itself. -/
theorem literal_of_isPlain {s : String} (h : TextStyle.isPlain s) :
    s ≠ "" ∧ Converter.literal s = .string s := by
  simp only [TextStyle.isPlain, Bool.and_eq_true, Bool.not_eq_true',
    String.isEmpty_eq_false_iff] at h
  obtain ⟨hne, hliteral⟩ := h
  refine ⟨hne, ?_⟩
  split at hliteral
  · next t ht => rw [ht, beq_iff_eq.mp hliteral]
  · cases hliteral

/-- **Strings are read back.**  A string is written without a tag only if it is not the literal of
anything else. -/
theorem readsAs_string (s : String) : ReadsAs (({} : TextStyle).string s) (.string s) := by
  have heqv : (Value.string s).eqv (.string s) = true := by simp [Value.eqv]
  unfold TextStyle.string
  split
  · next hplain =>
    obtain ⟨hne, hliteral⟩ := literal_of_isPlain hplain
    refine ⟨encode_ne_empty hne, fun _ => Percent.isWordChar_of_mem_encode, .string s, ?_, heqv⟩
    show builtin.convert "auto" (Percent.encode s) = _
    rw [convert_of_notMem (Percent.colon_notMem_encode s), Percent.decode_encode, hliteral]
  · exact readsAs_tagged "string" (c := Converter.string) (u := .string s) (by decide) rfl
      (fun _ => Percent.isWordChar_of_mem_encode)
      (congrArg (fun t => Except.ok (Value.string t)) (Percent.decode_encode s)) heqv

/-- **Patterns are read back.**  Without flags the source stands alone, unless it starts with a
slash itself. -/
theorem readsAs_pattern {p : Pattern} (h : p.flags.toList.all Pattern.isFlag) :
    ReadsAs (({} : TextStyle).pattern p) (.pattern p) := by
  have heqv : (Value.pattern p).eqv (.pattern p) = true := by simp [Value.eqv]
  have hword : ∀ text, Pattern.ofText text = p →
      ReadsAs ("re" ++ ":" ++ Percent.encode text) (.pattern p) := fun text htext =>
    readsAs_tagged "re" (c := Converter.re) (u := .pattern p) (by decide) rfl
      (fun _ => Percent.isWordChar_of_mem_encode)
      (by rw [Converter.re, Percent.decode_encode, htext]) heqv
  unfold TextStyle.pattern
  split
  · next hplain =>
    simp only [Bool.and_eq_true, String.isEmpty_iff, bne_iff_ne] at hplain
    exact hword p.source (by rw [Pattern.ofText_source hplain.2, ← hplain.1])
  · exact hword p.shown (Pattern.ofText_shown h)

theorem isWordChar_of_isDecimalChar {c : Char} (h : Text.isDecimalChar c) : Text.isWordChar c := by
  simp only [Text.isDecimalChar, Bool.or_eq_true, List.contains_iff_mem, List.mem_cons,
    List.not_mem_nil, or_false] at h
  rcases h with h | rfl | rfl | rfl | rfl
  · simp [Text.isWordChar, Text.isNameChar, Char.isAlphanum, h]
  all_goals decide

theorem decode_decimal {s : String} (h : ∀ c ∈ s.toList, Text.isDecimalChar c) :
    Percent.decode s = s :=
  Percent.decode_eq_self fun hmem => absurd (h '%' hmem) (by decide)

/-- **Dates of whole milliseconds are read back.** -/
theorem readsAs_date {t : Instant} (hrange : t.inRange) (hwhole : t.isWholeMillis) :
    ReadsAs ("epoch:" ++ integerText t.millis) (.date t) := by
  have hchars := Number.isDecimalChar_integerText t.millis
  have hbounds := Instant.millis_bounds hrange hwhole
  refine readsAs_tagged "epoch" (c := Converter.epoch) (u := .date t) (by decide) rfl
    (fun c hc => isWordChar_of_isDecimalChar (hchars c hc)) ?_ (by simp [Value.eqv])
  simp only [Converter.epoch, Converter.dated, decode_decimal hchars,
    Literal.int64?_integerText hbounds, Option.bind_some,
    Int64.toInt_ofInt_of_le hbounds.1 hbounds.2, Instant.ofMillis?_millis hrange hwhole]

/-- A word that stands for itself denotes its literal. -/
theorem readsAs_literal {word : String} {v : Value} (hne : word ≠ "")
    (hchars : word.toList.all fun c => Text.isWordChar c && c != ':' && c != '%')
    (hv : (Converter.literal word).eqv v = true) : ReadsAs word v := by
  simp only [List.all_eq_true, Bool.and_eq_true, bne_iff_ne] at hchars
  refine ⟨hne, fun c hc => (hchars c hc).1.1, Converter.literal word, ?_, hv⟩
  rw [convert_of_notMem fun hmem => (hchars ':' hmem).1.2 rfl,
    Percent.decode_eq_self fun hmem => (hchars '%' hmem).2 rfl]

/-- **Numbers are read back** as numbers that are equal to them. -/
theorem readsAs_number {n : Number} (h : (Value.number n).isReadable) :
    ReadsAs n.canonical (.number n) := by
  by_cases hfinite : n.isFinite
  · obtain ⟨hchars, m, hm, heq⟩ := Number.number?_canonical hfinite
    refine readsAs_literal ?_ ?_ ?_
    · intro hempty
      rw [hempty] at hm
      cases hm
    · rw [List.all_eq_true]
      intro c hc
      have hdecimal := hchars c hc
      have hcolon : c ≠ ':' := by rintro rfl; exact absurd hdecimal (by decide)
      have hpercent : c ≠ '%' := by rintro rfl; exact absurd hdecimal (by decide)
      simp [isWordChar_of_isDecimalChar hdecimal, hcolon, hpercent]
    · rw [Converter.literal_eq_number hchars hm, Value.eqv]
      exact heq
  · -- neither finite nor a NaN: one of the two infinities, which are reserved words
    cases n with
    | int i => exact absurd rfl hfinite
    | float x =>
      rw [Binary64.eq_infinity hfinite (by simpa [Value.isReadable] using h)]
      cases x.negative <;> exact readsAs_literal (by decide) (by decide) rfl

/-- **The canonical text of a readable value denotes an equal value.** -/
theorem readsAs_canonical {v : Value} (hv : v.isReadable) (ht : v.isTimely) :
    ReadsAs v.canonical v := by
  cases v with
  | null => exact readsAs_literal (by decide) (by decide) rfl
  | undefined => exact readsAs_literal (by decide) (by decide) rfl
  | bool b => cases b <;> exact readsAs_literal (by decide) (by decide) rfl
  | number n => exact readsAs_number hv
  | string s => exact readsAs_string s
  | date t => exact readsAs_date hv ht
  | pattern p => exact readsAs_pattern hv
  | array _ => cases hv
  | object _ => cases hv
  | host _ => cases hv

end Registry

/-! ## Exact values -/

/-- The value is neither a double nor a date. -/
def Value.isExact : Value → Bool
  | .number (.float _) | .date _ => false
  | _ => true

theorem Value.isTimely_of_isExact {v : Value} (h : v.isExact) : v.isTimely := by
  cases v with
  | date t => cases h
  | _ => rfl

namespace Registry

theorem convert_integerText (i : Int64) :
    builtin.convert "auto" (integerText i.toInt) = .ok (.number (.int i)) := by
  have hchars := Number.isDecimalChar_integerText i.toInt
  rw [convert_of_notMem fun hmem => absurd (hchars ':' hmem) (by decide), decode_decimal hchars,
    Converter.literal_eq_number hchars (Literal.number?_integerText i)]

/-- **The canonical text of an exact value denotes that value.**  An integer equals the double of
the same value, so its digits have to be read once more. -/
theorem convert_canonical {v : Value} (hv : v.isReadable) (hexact : v.isExact) :
    builtin.convert "auto" v.canonical = .ok v := by
  obtain ⟨u, hu, heqv⟩ := (readsAs_canonical hv (Value.isTimely_of_isExact hexact)).convert
  cases v with
  | number n =>
    cases n with
    | int i => exact convert_integerText i
    | float x => cases hexact
  | date t => cases hexact
  | array _ => cases hv
  | object _ => cases hv
  | host _ => cases hv
  | _ => cases u <;> simp_all [Value.eqv]

theorem convert_string (s : String) :
    builtin.convert "auto" (({} : TextStyle).string s) = .ok (.string s) :=
  convert_canonical (v := .string s) rfl rfl

end Registry

end ResourceQuery
