import ResourceQuery.Proofs.CanonicalText.Legible
import ResourceQuery.Proofs.Shorthand.EncodedSign

/-!
# Canonical text is inert

The dialect of full queries decodes comparison signs and expands slashes before it reads anything
else.  Canonical text has neither: slashes are always encoded, and an encoded sign would stand for
a `<` or a `>` in a string or a pattern.  No value of a query has one of these, since the signs
were decoded in its text too, and the words that are left denote values without them.

## Main definitions

* `Text.AngleFree`, `Value.AngleFree`: there is no `<` and no `>`
* `Shorthand.Inert`: the text has neither encoded signs nor slashes

## Main results

* `Percent.not_hasEncodedSign_encode`: encoding makes encoded signs of angle brackets only
* `Registry.angleFree_of_convert`: words without encoded signs denote values without brackets
* `Parser.angleFree_of_parse`: so do all words of a query that stand for values
* `inert_node`: the canonical text of such a tree is inert
-/

namespace ResourceQuery

open Shorthand

namespace Text

/-- There are no angle brackets in a text. -/
def AngleFree (cs : List Char) : Prop := ∀ c ∈ ['<', '>'], c ∉ cs

/-- There are no angle brackets in a text, and no encoded ones. -/
def SignFree (cs : List Char) : Prop := AngleFree cs ∧ ¬ HasEncodedSign cs

/-- Fewer characters make no new angle bracket. -/
theorem AngleFree.mono {cs ds : List Char} (h : AngleFree ds) (hsubset : cs ⊆ ds) : AngleFree cs :=
  fun c hc hmem => h c hc (hsubset hmem)

theorem SignFree.mono {cs ds : List Char} (h : SignFree ds) (hwithin : cs <:+: ds) : SignFree cs :=
  ⟨h.1.mono hwithin.subset, fun hsign => h.2 (hsign.of_isInfix hwithin)⟩

/-- There is no angle bracket in a word. -/
theorem angleFree_of_isWordChar {cs : List Char} (h : ∀ c ∈ cs, isWordChar c) : AngleFree cs := by
  intro c hc hmem
  have hword := h c hmem
  rcases List.mem_pair.mp hc with rfl | rfl <;> revert hword <;> decide

end Text

open Text (AngleFree SignFree)

/-! ## Percent encoding -/

namespace Percent

/-- A byte below 128 is the character it encodes: only the one-byte form has such a byte. -/
theorem toNat_of_mem_utf8EncodeChar {b : UInt8} {c : Char} (h : b ∈ String.utf8EncodeChar c)
    (hb : b.toNat < 128) : c.toNat = b.toNat := by
  unfold String.utf8EncodeChar at h
  extract_lets v at h
  change v = b.toNat
  split_ifs at h
  all_goals
    simp only [List.mem_cons, List.not_mem_nil, or_false] at h
  · subst h
    rw [UInt8.toNat_ofNat']
    omega
  · rcases h with rfl | rfl <;> simp only [UInt8.toNat_ofNat'] at hb ⊢ <;> omega
  · rcases h with rfl | rfl | rfl <;> simp only [UInt8.toNat_ofNat'] at hb ⊢ <;> omega
  · rcases h with rfl | rfl | rfl | rfl <;> simp only [UInt8.toNat_ofNat'] at hb ⊢ <;> omega

/-- The code of a hexadecimal digit, by its value. -/
theorem toNat_of_hexValue? {c : Char} {n : Nat} (h : hexValue? c = some n) :
    (n < 10 ∧ c.toNat = n + 48) ∨ (10 ≤ n ∧ n < 16 ∧ (c.toNat = n + 55 ∨ c.toNat = n + 87)) := by
  unfold hexValue? at h
  simp only [Char.isDigit, Bool.and_eq_true, decide_eq_true_eq, Char.le_def, ge_iff_le,
    UInt32.le_iff_toNat_le] at h
  split_ifs at h with hdigit hupper hlower
  · cases h
    change 48 ≤ c.toNat ∧ c.toNat ≤ 57 at hdigit
    omega
  · cases h
    change 65 ≤ c.toNat ∧ c.toNat ≤ 70 at hupper
    omega
  · cases h
    change 97 ≤ c.toNat ∧ c.toNat ≤ 102 at hlower
    omega

/-- The byte of an angle bracket. -/
def IsAngle (b : UInt8) : Prop := b.toNat = 60 ∨ b.toNat = 62

/-- The byte of an angle bracket encodes nothing else. -/
theorem IsAngle.mem_of_mem_utf8EncodeChar {b : UInt8} (hb : IsAngle b) {c : Char}
    (h : b ∈ String.utf8EncodeChar c) : c ∈ ['<', '>'] := by
  have hlt : b.toNat < 128 := by rcases hb with hb | hb <;> omega
  have hc := toNat_of_mem_utf8EncodeChar h hlt
  rw [← Char.ofNat_toNat c, hc]
  rcases hb with hb | hb <;> rw [hb] <;> decide

theorem exists_isAngle_of_mem {c : Char} (hc : c ∈ ['<', '>']) :
    ∃ b ∈ String.utf8EncodeChar c, IsAngle b := by
  rcases List.mem_pair.mp hc with rfl | rfl
  · exact ⟨60, by decide, .inl rfl⟩
  · exact ⟨62, by decide, .inr rfl⟩

/-- Only encoded signs are escapes of angle brackets. -/
theorem IsAngle.of_escaped? {b : UInt8} (hb : IsAngle b) {high low : Char}
    (h : escaped? high low = some b) : high = '3' ∧ low ∈ ['C', 'c', 'E', 'e'] := by
  unfold escaped? at h
  split at h
  · next x y hx hy =>
    cases h
    rw [IsAngle, UInt8.toNat_ofNat'] at hb
    have hx := toNat_of_hexValue? hx
    have hy := toNat_of_hexValue? hy
    have hhigh : high.toNat = 51 := by omega
    have hlow : low.toNat = 67 ∨ low.toNat = 99 ∨ low.toNat = 69 ∨ low.toNat = 101 := by omega
    rw [← Char.ofNat_toNat high, ← Char.ofNat_toNat low, hhigh]
    rcases hlow with hlow | hlow | hlow | hlow <;> rw [hlow] <;> decide
  · cases h

/-- **An angle bracket that is decoded was encoded**, if there was none before. -/
theorem IsAngle.of_decodeBytes {b : UInt8} (hb : IsAngle b) {cs : List Char} (hfree : AngleFree cs)
    (h : b ∈ decodeBytes cs) : HasEncodedSign cs := by
  fun_induction decodeBytes cs with
  | case1 high low rest b' hescaped ih =>
    rcases List.mem_cons.mp h with rfl | h
    · obtain ⟨rfl, hlow⟩ := hb.of_escaped? hescaped
      exact ⟨low, hlow, [], rest, rfl⟩
    · refine (ih (hfree.mono ?_) h).of_isInfix ⟨['%', high, low], [], by simp⟩
      exact List.subset_append_right ['%', high, low] rest
  | case2 high low rest hnone ih =>
    rcases List.mem_append.mp h with h | h
    · exact absurd (hb.mem_of_mem_utf8EncodeChar h) (by decide)
    · exact (ih (hfree.mono (List.subset_cons_self _ _)) h).of_isInfix
        (List.suffix_cons _ _).isInfix
  | case3 c rest hne ih =>
    rcases List.mem_append.mp h with h | h
    · exact absurd List.mem_cons_self (hfree c (hb.mem_of_mem_utf8EncodeChar h))
    · exact (ih (hfree.mono (List.subset_cons_self _ _)) h).of_isInfix
        (List.suffix_cons _ _).isInfix
  | case4 => cases h

/-- **Words without encoded signs denote texts without brackets.** -/
theorem angleFree_decode {s : String} (h : SignFree s.toList) : AngleFree (decode s).toList := by
  unfold decode
  cases hdecode : decode? s with
  | none => exact h.1
  | some t =>
    intro c hc hmem
    obtain ⟨b, hbytes, hb⟩ := exists_isAngle_of_mem hc
    refine h.2 (hb.of_decodeBytes h.1 ?_)
    rw [← flatMap_of_decode? hdecode]
    exact List.mem_flatMap.mpr ⟨c, hmem, hbytes⟩

/-- A byte with the digits of an encoded sign is that of an angle bracket. -/
theorem isAngle_of_hexDigit {b : UInt8} (hhigh : hexDigit (b.toNat / 16) = '3')
    (hlow : hexDigit (b.toNat % 16) ∈ ['C', 'c', 'E', 'e']) : IsAngle b := by
  have hb : b.toNat < 256 := b.toNat_lt
  have hx : ∀ n < 16, hexDigit n = '3' → n = 3 := by decide
  have hy : ∀ n < 16, hexDigit n ∈ ['C', 'c', 'E', 'e'] → n = 12 ∨ n = 14 := by decide
  have hx := hx _ (by omega) hhigh
  have hy := hy _ (by omega) hlow
  rw [IsAngle]
  omega

theorem hexDigit_ne_percent {n : Nat} (h : n < 16) : hexDigit n ≠ '%' := by
  revert n; decide

/-- An encoded sign in escaped bytes is one of them. -/
theorem hasEncodedSign_escapeByte {b : UInt8} {rest : List Char}
    (h : HasEncodedSign (escapeByte b ++ rest)) : IsAngle b ∨ HasEncodedSign rest := by
  have hb : b.toNat < 256 := b.toNat_lt
  have hskip : ∀ {n cs}, n < 16 → HasEncodedSign (hexDigit n :: cs) → HasEncodedSign cs := by
    intro n cs hn hcs
    rcases hasEncodedSign_cons_cases hcs with ⟨_, _, _, hpercent, -⟩ | hcs
    · exact absurd hpercent (hexDigit_ne_percent hn)
    · exact hcs
  rcases hasEncodedSign_cons_cases h with ⟨d, hd, after, -, heq⟩ | h
  · obtain ⟨hhigh, htail⟩ := List.cons.inj heq
    obtain ⟨hlow, -⟩ := List.cons.inj htail
    exact .inl (isAngle_of_hexDigit hhigh (hlow ▸ hd))
  · exact .inr (hskip (by omega) (hskip (by omega) h))

/-- **Encoding makes encoded signs of angle brackets only.** -/
theorem not_hasEncodedSign_encode {s : String} (h : AngleFree s.toList) :
    ¬ HasEncodedSign (encode s).toList := by
  rw [toList_encode]
  generalize s.toList = cs at h
  induction cs with
  | nil => exact not_hasEncodedSign_nil
  | cons c cs ih =>
    have hrest := ih (h.mono (List.subset_cons_self c cs))
    rw [List.flatMap_cons]
    unfold encodeChar
    split_ifs with hc
    · intro hsign
      rcases hasEncodedSign_cons_cases hsign with ⟨_, _, _, rfl, -⟩ | hsign
      · exact absurd hc (by decide)
      · exact hrest hsign
    · have hbytes : ∀ b ∈ String.utf8EncodeChar c, ¬ IsAngle b := fun b hb hangle =>
        absurd List.mem_cons_self (h c (hangle.mem_of_mem_utf8EncodeChar hb))
      generalize String.utf8EncodeChar c = bs at hbytes
      induction bs with
      | nil => exact hrest
      | cons b bs ih =>
        obtain ⟨hb, hbs⟩ := List.forall_mem_cons.mp hbytes
        rw [List.flatMap_cons, List.append_assoc]
        exact fun hsign => (hasEncodedSign_escapeByte hsign).elim hb (ih hbs)

theorem slash_notMem_encode (s : String) : '/' ∉ (encode s).toList := fun h =>
  absurd (isEncodedChar_of_mem_encode h) (by decide)

end Percent

/-! ## Inert texts -/

namespace Shorthand

/-- The text has neither encoded signs nor slashes. -/
def Inert (cs : List Char) : Prop := ¬ HasEncodedSign cs ∧ '/' ∉ cs

/-- The rules before the infix rule leave inert text alone. -/
theorem Inert.prepare_eq_self {cs : List Char} (h : Inert cs) (d : Dialect) : d.prepare cs = cs :=
  Dialect.prepare_eq_self h.1 h.2

/-- Text around a sign is inert if both sides are. -/
theorem inert_append_sign_iff {sign : Char} (hsign : sign ∉ encodedChars) (hslash : sign ≠ '/')
    {cs ds : List Char} : Inert (cs ++ sign :: ds) ↔ Inert cs ∧ Inert ds := by
  simp only [Inert, hasEncodedSign_append_sign_iff hsign, List.mem_append, List.mem_cons,
    hslash.symm, false_or, not_or]
  tauto

theorem inert_of_notMem {cs : List Char} (hpercent : '%' ∉ cs) (hslash : '/' ∉ cs) : Inert cs :=
  ⟨not_hasEncodedSign_of_notMem hpercent, hslash⟩

/-- **Encoded text is inert**, if there is no angle bracket to encode. -/
theorem inert_encode {s : String} (h : AngleFree s.toList) : Inert (Percent.encode s).toList :=
  ⟨Percent.not_hasEncodedSign_encode h, Percent.slash_notMem_encode s⟩

/-- A tag in front of an encoded text. -/
theorem inert_tagged {tag : String} (htag : '%' ∉ tag.toList ∧ '/' ∉ tag.toList) {s : String}
    (h : AngleFree s.toList) : Inert (tag ++ ":" ++ Percent.encode s).toList := by
  rw [String.toList_append, String.toList_append, List.append_assoc]
  exact (inert_append_sign_iff (by decide) (by decide)).mpr
    ⟨inert_of_notMem htag.1 htag.2, inert_encode h⟩

/-- Numbers are inert. -/
theorem inert_of_isDecimalChar {cs : List Char} (h : ∀ c ∈ cs, Text.isDecimalChar c) :
    Inert cs :=
  inert_of_notMem (fun hmem => absurd (h '%' hmem) (by decide))
    fun hmem => absurd (h '/' hmem) (by decide)

end Shorthand

/-! ## Values -/

/-- There are no angle brackets in the texts of a value. -/
def Value.AngleFree : Value → Prop
  | .string s => Text.AngleFree s.toList
  | .pattern p => Text.AngleFree p.source.toList
  | _ => True

namespace Pattern

theorem source_ofText_subset (s : String) : (ofText s).source.toList ⊆ s.toList := by
  unfold ofText
  split
  · next rest heq =>
    split
    · next source flags hsplit =>
      split_ifs
      · unfold splitLastSlash? at hsplit
        split at hsplit
        · next after _ before hspan =>
          cases hsplit
          rw [List.span_eq_takeWhile_dropWhile] at hspan
          have hsuffix : before <:+ rest.reverse := by
            have hdrop := (Prod.mk.inj hspan).2
            exact (List.suffix_cons _ _).trans (hdrop ▸ List.dropWhile_suffix _)
          intro c hc
          rw [String.toList_ofList, List.mem_reverse] at hc
          rw [heq]
          exact List.mem_cons_of_mem _ (List.mem_reverse.mp (hsuffix.subset hc))
        · cases hsplit
      · exact List.Subset.refl _
    · exact List.Subset.refl _
  · exact List.Subset.refl _

/-- A glob without angle brackets becomes a pattern without: there are no characters in it but its
own and a few others. -/
theorem angleFree_ofGlob {s : String} (h : AngleFree s.toList) :
    AngleFree (ofGlob s).source.toList := by
  have htrim : trimStars s.toList ⊆ s.toList := by
    intro c hc
    have hc := (List.dropWhile_suffix _).subset (List.mem_reverse.mp hc)
    exact (List.dropWhile_suffix _).subset (List.mem_reverse.mp hc)
  have hchar : ∀ d, ∀ c ∈ ofGlobChar d, c = d ∨ c ∈ ['.', '*', '?', '\\'] := by
    intro d c hc
    unfold ofGlobChar at hc
    split_ifs at hc <;> simp at hc ⊢ <;> tauto
  intro c hc hmem
  have hne : c ∉ ['.', '*', '?', '\\', '^', '$'] := by
    rcases List.mem_pair.mp hc with rfl | rfl <;> decide
  simp only [List.mem_cons, List.not_mem_nil, or_false, not_or] at hne
  simp only [ofGlob, String.toList_ofList, List.mem_append, List.mem_flatMap] at hmem
  rcases hmem with (hmem | ⟨d, hd, hmem⟩) | hmem
  · split_ifs at hmem <;> simp [hne] at hmem
  · rcases hchar d c hmem with rfl | hmem
    · exact h c hc (htrim hd)
    · simp [hne] at hmem
  · split_ifs at hmem <;> simp [hne] at hmem

end Pattern

namespace Converter

theorem angleFree_unquote {s : String} (h : AngleFree s.toList) : AngleFree (unquote s).toList := by
  unfold unquote
  split
  · next rest heq =>
    split_ifs
    · refine h.mono fun c hc => ?_
      rw [String.toList_ofList] at hc
      rw [heq]
      exact List.mem_cons_of_mem _ (List.mem_of_mem_dropLast hc)
    · exact h
  · exact h

theorem angleFree_reserved {s : String} {v : Value} (h : reserved.lookup s = some v) :
    v.AngleFree := by
  obtain ⟨before, after, hsplit, -⟩ := List.lookup_eq_some_iff.mp h
  have hmem : (s, v) ∈ reserved := by rw [hsplit]; simp
  simp only [reserved, List.mem_cons, List.not_mem_nil, or_false, Prod.mk.injEq] at hmem
  rcases hmem with ⟨-, rfl⟩ | ⟨-, rfl⟩ | ⟨-, rfl⟩ | ⟨-, rfl⟩ | ⟨-, rfl⟩ | ⟨-, rfl⟩ <;> trivial

/-- A text without angle brackets denotes a value without. -/
theorem angleFree_literal {s : String} (h : AngleFree s.toList) : (literal s).AngleFree := by
  unfold literal
  dsimp only
  split
  · next hreserved => exact angleFree_reserved hreserved
  · split
    · trivial
    · exact angleFree_unquote h

/-- A converter that makes no angle brackets. -/
def GivesAngleFree (c : Converter) : Prop :=
  ∀ w v, SignFree w.toList → c w = .ok v → v.AngleFree

theorem givesAngleFree_ok {f : String → Value}
    (h : ∀ w, SignFree w.toList → (f w).AngleFree) : GivesAngleFree fun w => .ok (f w) := by
  rintro w v hw ⟨⟩
  exact h w hw

theorem givesAngleFree_number : GivesAngleFree number := by
  intro w v _ h
  unfold number at h
  dsimp only at h
  split_ifs at h
  · cases h
    trivial
  · cases h
    trivial
  · split at h
    · cases h
      trivial
    · cases h

theorem givesAngleFree_dated (name : String) (read : List Char → Option Instant) :
    GivesAngleFree (dated name read) := by
  intro w v _ h
  unfold dated at h
  split at h
  · cases h
    trivial
  · cases h

end Converter

namespace Registry

open Converter Percent in
/-- **No built-in converter makes an angle bracket**, so there is one in a value only if its word
has an encoded one. -/
theorem givesAngleFree_builtin : ∀ e ∈ builtin.entries, GivesAngleFree e.2 := by
  simp only [builtin, List.forall_mem_cons, List.not_mem_nil, false_implies, implies_true, and_true]
  exact ⟨givesAngleFree_ok fun _ hw => angleFree_literal (angleFree_decode hw),
    givesAngleFree_ok fun _ hw => angleFree_decode hw, givesAngleFree_number,
    givesAngleFree_ok fun _ _ => trivial, givesAngleFree_ok fun _ _ => trivial,
    givesAngleFree_ok fun _ _ => trivial, givesAngleFree_dated _ _, givesAngleFree_dated _ _,
    givesAngleFree_dated _ _,
    givesAngleFree_ok fun _ hw => (angleFree_decode hw).mono (Pattern.source_ofText_subset _),
    givesAngleFree_ok fun _ hw => Pattern.angleFree_ofGlob (angleFree_decode hw)⟩

theorem split_suffix (defaultName word : String) :
    (split defaultName word).2.toList <:+ word.toList := by
  unfold split
  split
  · next body heq =>
    rw [List.span_eq_takeWhile_dropWhile] at heq
    rw [String.toList_ofList]
    exact (List.suffix_cons _ _).trans ((Prod.mk.inj heq).2 ▸ List.dropWhile_suffix _)
  · exact List.suffix_rfl

/-- **Words without comparison signs denote values without angle brackets.** -/
theorem angleFree_of_convert {defaultName word : String} {v : Value} (hw : SignFree word.toList)
    (h : builtin.convert defaultName word = .ok v) : v.AngleFree := by
  unfold convert at h
  dsimp only at h
  split at h
  · next c hc =>
    obtain ⟨before, after, hsplit, -⟩ := List.lookup_eq_some_iff.mp hc
    exact givesAngleFree_builtin ((split defaultName word).1, c) (by rw [hsplit]; simp) _ v
      (hw.mono (split_suffix defaultName word).isInfix) h
  · cases h

end Registry

namespace Value

/-- The text of a string is inert. -/
theorem inert_string {s : String} (h : Text.AngleFree s.toList) :
    Inert (({} : TextStyle).string s).toList := by
  unfold TextStyle.string
  split_ifs
  · exact inert_encode h
  · have htag := @inert_tagged "string" (by decide) s h
    exact htag

/-- The text of a pattern is inert. -/
theorem inert_pattern {p : Pattern} (hflags : p.flags.toList.all Pattern.isFlag)
    (h : Text.AngleFree p.source.toList) : Inert (({} : TextStyle).pattern p).toList := by
  have hshown : Text.AngleFree p.shown.toList := by
    intro c hc hmem
    have hother : ¬ Pattern.isFlag c ∧ c ≠ '/' := by
      rcases List.mem_pair.mp hc with rfl | rfl <;> decide
    simp only [Pattern.shown, String.toList_append, List.mem_append] at hmem
    rcases hmem with ((hmem | hmem) | hmem) | hmem
    · exact hother.2 (List.mem_singleton.mp hmem)
    · exact h c hc hmem
    · exact hother.2 (List.mem_singleton.mp hmem)
    · exact hother.1 (List.all_eq_true.mp hflags c hmem)
  unfold TextStyle.pattern
  split_ifs
  · have htag := @inert_tagged "re" (by decide) p.source h
    exact htag
  · have htag := @inert_tagged "re" (by decide) p.shown hshown
    exact htag

theorem inert_number (n : Number) : Inert n.canonical.toList := by
  rcases n.canonical_cases with hdecimal | hword
  · exact inert_of_isDecimalChar hdecimal
  · have hwords : ∀ text ∈ ["NaN", "Infinity", "-Infinity"],
        '%' ∉ text.toList ∧ '/' ∉ text.toList := by decide
    exact inert_of_notMem (hwords _ hword).1 (hwords _ hword).2

/-- The canonical text of a value without angle brackets is not touched before it is read. -/
theorem inert_canonical {v : Value} (hv : v.isReadable) (hfree : v.AngleFree) :
    Inert v.canonical.toList := by
  cases v with
  | null => exact inert_of_notMem (by decide) (by decide)
  | undefined => exact inert_of_notMem (by decide) (by decide)
  | bool b => cases b <;> exact inert_of_notMem (by decide) (by decide)
  | number n => exact inert_number n
  | string s => exact inert_string hfree
  | date t =>
    have hchars := Number.isDecimalChar_integerText t.millis
    change Inert ("epoch:" ++ integerText t.millis).toList
    rw [String.toList_append]
    refine inert_of_notMem ?_ ?_
    · simpa using fun hmem => absurd (hchars '%' hmem) (by decide)
    · simpa using fun hmem => absurd (hchars '/' hmem) (by decide)
  | pattern p => exact inert_pattern hv hfree
  | array _ => cases hv
  | object _ => cases hv
  | host _ => cases hv

end Value

/-! ## Words of queries -/

namespace Token

/-- A word that stands for a value has no encoded sign, if these are in names only. -/
theorem HasValue.signFree {ts : List Token} {cs : List Char} (hcuts : Cuts ts cs)
    (hnames : SignsInNames cs) {w : String} (h : HasValue ts w) : SignFree w.toList := by
  obtain ⟨us, vs, rfl, hopening⟩ := h
  have hword := (Text.isWord_iff.mp (hcuts.words w (by simp))).2
  refine ⟨Text.angleFree_of_isWordChar hword, ?_⟩
  rintro ⟨c, hc, front, back, hw⟩
  have hback : ∀ d ∈ back, Text.isWordChar d := fun d hd => hword d (by rw [← hw]; simp [hd])
  have htail := hcuts.of_append
  have hcloses : Closes (spelling vs) := by
    cases vs with
    | nil => exact closes_nil
    | cons v vs =>
      have hv : ¬ v.IsWord := fun hv => (List.isChain_cons_cons.mp htail.apart).1 ⟨⟨w, rfl⟩, hv⟩
      have hfinish : v ≠ .finish := fun hv => htail.open_ended (by simp [hv])
      cases v with
      | word u => exact absurd ⟨u, rfl⟩ hv
      | opening => exact absurd rfl hopening
      | finish => exact absurd rfl hfinish
      | _ => exact closes_cons.mpr (by decide)
  refine @hnames (spelling us ++ front) (back ++ spelling vs) c hc ?_ ?_
  · rw [← hcuts.spelling]
    simp [chars, ← hw]
  · rwa [Text.dropWhile_word hback htail.endsWord_tail]

end Token

namespace Parser

/-- **The values of a query have no angle brackets**, since the words that stand for them have no
encoded signs. -/
theorem angleFree_of_parse {text : String} {t : Term} (h : queries.parse text = .ok t) :
    ∀ v ∈ t.toNode.leaves, v.AngleFree := by
  intro v hv
  obtain ⟨ts, -, -, hcuts, -⟩ := parse_eq_ok_iff_runs.mp h
  obtain ⟨w, hw, hconvert⟩ := exists_word_of_mem_leaves rfl h hcuts hv
  have hprepared : ¬ HasEncodedSign (Dialect.queries.prepare text.toList) :=
    not_hasEncodedSign_expandSlashes (not_hasEncodedSign_decode text.toList)
  have hexpand : (Dialect.queries.expand text).toList =
      infixOperator.apply (Dialect.queries.prepare text.toList) := by
    rw [Dialect.expand_eq rfl, String.toList_ofList]
  change Token.Cuts ts (Dialect.queries.expand text).toList at hcuts
  rw [hexpand] at hcuts
  exact Registry.angleFree_of_convert (hw.signFree hcuts (signsInNames_apply hprepared)) hconvert

end Parser

/-! ## Trees -/

namespace Shorthand

theorem inert_nil : Inert [] := inert_of_notMem List.not_mem_nil List.not_mem_nil

theorem inert_cons_iff {sign : Char} (hsign : sign ∉ encodedChars) (hslash : sign ≠ '/')
    {cs : List Char} : Inert (sign :: cs) ↔ Inert cs := by
  have hiff := @inert_append_sign_iff sign hsign hslash [] cs
  simpa [inert_nil] using hiff

theorem inert_concat_iff {sign : Char} (hsign : sign ∉ encodedChars) (hslash : sign ≠ '/')
    {cs : List Char} : Inert (cs ++ [sign]) ↔ Inert cs := by
  simp [inert_append_sign_iff hsign hslash, inert_nil]

end Shorthand

/-- Inert texts with a separator between them are inert. -/
theorem IsSeparator.inert {separator : String} {c : Char} {sign : Token}
    (hsign : IsSeparator separator c sign) {texts : List String}
    (h : ∀ text ∈ texts, Inert text.toList) :
    Inert (String.intercalate separator texts).toList := by
  have hchar : c ∉ encodedChars ∧ c ≠ '/' := by
    have hmem := hsign.mem
    simp only [List.mem_cons, List.not_mem_nil, or_false] at hmem
    rcases hmem with rfl | rfl | rfl <;> decide
  rw [String.toList_intercalate, hsign.toList]
  induction texts with
  | nil => exact inert_nil
  | cons text texts ih =>
    obtain ⟨htext, htexts⟩ := List.forall_mem_cons.mp h
    cases texts with
    | nil => simpa using htext
    | cons _ _ =>
      rw [List.map_cons, List.map_cons, List.intercalate_cons_cons, List.append_assoc,
        List.singleton_append, inert_append_sign_iff hchar.1 hchar.2]
      exact ⟨htext, ih htexts⟩

theorem IsSeparator.inert_parenthesized {separator : String} {c : Char} {sign : Token}
    (hsign : IsSeparator separator c sign) {texts : List String}
    (h : ∀ text ∈ texts, Inert text.toList) :
    Inert (TextStyle.parenthesized separator texts).toList := by
  rw [toList_parenthesized, inert_cons_iff (by decide) (by decide),
    inert_concat_iff (by decide) (by decide)]
  exact hsign.inert h

theorem inert_disjunction {texts : List String} (h : ∀ text ∈ texts, Inert text.toList) :
    Inert (TextStyle.disjunction texts).toList := by
  have hpipe := isSeparator_pipe.inert h
  unfold TextStyle.disjunction
  split_ifs
  · rw [String.toList_append]
    exact (inert_concat_iff (by decide) (by decide)).mpr hpipe
  · exact hpipe

/-- A term in prefix form is inert, if its name and its arguments are. -/
theorem inert_prefix {name : String} (hname : Inert name.toList) {texts : List String}
    (h : ∀ text ∈ texts, Inert text.toList) :
    Inert (name ++ TextStyle.parenthesized "," texts).toList := by
  have hlist := isSeparator_comma.inert_parenthesized h
  rw [toList_parenthesized, inert_cons_iff (by decide) (by decide)] at hlist
  rw [String.toList_append, toList_parenthesized]
  exact (inert_append_sign_iff (by decide) (by decide)).mpr ⟨hname, hlist⟩

/-- A comparison sign holds no character of an encoded sign. -/
theorem inert_infix {symbol : String} {name : String}
    (hsymbol : TextStyle.infixSign? name = some symbol) {left right : String}
    (hl : Inert left.toList) (hr : Inert right.toList) :
    Inert (left ++ symbol ++ right).toList := by
  obtain ⟨c, -, hsign⟩ := Option.bind_eq_some_iff.mp hsymbol
  have hsigns : symbol ≠ "" ∧
      symbol.toList.all fun e => !encodedChars.contains e && e != '/' := by
    cases c <;> cases hsign <;> decide
  have hall : ∀ e ∈ symbol.toList, e ∉ encodedChars ∧ e ≠ '/' := by
    simpa using hsigns.2
  obtain ⟨d, ds, hlist⟩ := List.exists_cons_of_ne_nil fun hnil =>
    hsigns.1 (String.toList_eq_nil_iff.mp hnil)
  rw [hlist] at hall
  obtain ⟨hd, hds⟩ := List.forall_mem_cons.mp hall
  have hright : Inert (ds ++ right.toList) := by
    clear hlist hall
    induction ds with
    | nil => exact hr
    | cons e ds ih =>
      obtain ⟨he, hds⟩ := List.forall_mem_cons.mp hds
      exact (inert_cons_iff he.1 he.2).mpr (ih hds)
  rw [String.toList_append, String.toList_append, hlist, List.append_assoc, List.cons_append]
  exact (inert_append_sign_iff hd.1 hd.2).mpr ⟨hl, hright⟩

/-- A term in any form is inert, if its name and its arguments are. -/
theorem inert_application {name : String} (hname : Inert name.toList) {texts : List String}
    (h : ∀ text ∈ texts, Inert text.toList) : Inert (TextStyle.application name texts).toList := by
  unfold TextStyle.application
  split
  · next sign first second rest hsign =>
    unfold TextStyle.groupSign? at hsign
    split_ifs at hsign
    · cases hsign
      exact isSeparator_ampersand.inert_parenthesized h
    · cases hsign
      exact isSeparator_pipe.inert_parenthesized h
  · split
    · next symbol left right hsymbol _ =>
      unfold TextStyle.comparison
      split_ifs
      · exact inert_infix hsymbol (h left (by simp)) (h right (by simp))
      · exact inert_prefix hname h
    · exact inert_prefix hname h

/-- **The canonical text of a tree is inert**, if its names and the texts of its values are. -/
theorem inert_node {n : Node} (hnames : ∀ name ∈ n.names, Inert name.toList)
    (hvalues : ∀ v ∈ n.leaves, Inert v.canonical.toList) :
    Inert (({} : TextStyle).node n).toList := by
  have htexts : ∀ ns : List Node, (∀ m ∈ ns, Inert (({} : TextStyle).node m).toList) →
      ∀ text ∈ ({} : TextStyle).nodes ns, Inert text.toList := by
    intro ns hns text htext
    rw [nodes_eq_map] at htext
    obtain ⟨m, hm, rfl⟩ := List.mem_map.mp htext
    exact hns m hm
  induction n with
  | term name args ih =>
    rw [Node.names_term] at hnames
    rw [Node.leaves_term] at hvalues
    have hargs := htexts args fun m hm => ih m hm
      (fun k hk => hnames k (List.mem_append_right _ (List.mem_flatMap_of_mem hm hk)))
      fun v hv => hvalues v (List.mem_flatMap_of_mem hm hv)
    cases name with
    | none => exact isSeparator_comma.inert_parenthesized hargs
    | some name => exact inert_application (hnames name (by simp)) hargs
  | list items ih =>
    rw [Node.names_list] at hnames
    rw [Node.leaves_list] at hvalues
    exact isSeparator_comma.inert_parenthesized (htexts items fun m hm => ih m hm
      (fun k hk => hnames k (List.mem_flatMap_of_mem hm hk))
      fun v hv => hvalues v (List.mem_flatMap_of_mem hm hv))
  | value v => exact hvalues v (by simp)

/-- Inert text has infix operators for its only shorthand. -/
theorem Shorthand.Inert.expandsInfix {p : Parser} (hp : p.dialect.infixOperators) {text : String}
    (h : Inert text.toList) : p.ExpandsInfix text := by
  rw [Parser.ExpandsInfix, Dialect.expand_eq hp, h.prepare_eq_self]
  rfl

end ResourceQuery
