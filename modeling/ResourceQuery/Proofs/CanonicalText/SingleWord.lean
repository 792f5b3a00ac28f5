import ResourceQuery.Proofs.CanonicalText.RoundTrip
import ResourceQuery.Proofs.Token.Scan

/-!
# Strings and patterns are single words

Whatever characters a string or the source of a pattern has, its canonical text is a word, and the
built-in converters read that word as the string or the pattern itself.

A string gets a tag if its text alone would be read as something else: quotes are taken off, and
reserved words and numbers are no strings.  A pattern is put between slashes if it has flags, or if
its source starts with a slash and would itself be taken for a text in slashes.  There may be
slashes in the source then, and letters that look like flags at its end: what is read as flags is
the text after the last slash.  It is read as flags if all of it is flag letters, so other flags
come back as a part of the source.

## Main definitions

* `Token.IsSingleWord`: a text that is cut into one word

## Main results

* `Token.isSingleWord_iff`: the texts that are cut into one word
* `TextStyle.convert_pattern_iff`: the patterns that are read back
* `TextStyle.single_words_read_back`: strings and patterns are single words, and are read back
-/

namespace ResourceQuery

/-! ## Single words -/

namespace Token

/-- The text has word characters only, and the scanner finds one word in it, which is all of the
text.  It finds the same word wherever the text stands, if no word character follows. -/
structure IsSingleWord (text : String) : Prop where
  isWordChar : ∀ c ∈ text.toList, Text.isWordChar c
  tokenize : Token.tokenize text = .ok [⟨word text, 0⟩, ⟨finish, text.length⟩]
  scanFrom : ∀ position rest, Text.EndsWord rest →
    Token.scanFrom position (text.toList ++ rest) =
      (Token.scanFrom (position + text.length) rest).cons ⟨word text, position⟩

theorem tokenize_empty : tokenize "" = .ok [⟨finish, 0⟩] := by
  simp [tokenize, scan, scanFrom, Scan.error?]

/-- The texts that are single words are the non-empty runs of word characters. -/
theorem isSingleWord_iff {text : String} : IsSingleWord text ↔ Text.isWord text := by
  constructor
  · intro h
    refine Text.isWord_iff.mpr ⟨?_, h.isWordChar⟩
    rintro rfl
    cases tokenize_empty.symm.trans h.tokenize
  · intro h
    have hscan : ∀ position rest, Text.EndsWord rest →
        Token.scanFrom position (text.toList ++ rest) =
          (Token.scanFrom (position + text.length) rest).cons ⟨word text, position⟩ := by
      intro position rest hrest
      rw [scanFrom_word h hrest, String.length_toList]
    refine ⟨(Text.isWord_iff.mp h).2, ?_, hscan⟩
    have hwhole := hscan 0 [] Text.endsWord_nil
    rw [List.append_nil] at hwhole
    simp [Token.tokenize, scan, hwhole, Token.scanFrom, Scan.cons, Scan.error?]

end Token

namespace Pattern

theorem all_isFlag_iff {flags : String} :
    flags.toList.all isFlag ↔ flags.toList ⊆ "gimsuy".toList := by
  simp [isFlag, List.subset_def]

end Pattern

/-! ## Texts -/

namespace TextStyle

/-- A pattern is read back if its flags are flag letters, and only then. -/
theorem convert_pattern_iff {p : Pattern} :
    Registry.builtin.convert "auto" (({} : TextStyle).pattern p) = .ok (.pattern p) ↔
      p.flags.toList ⊆ "gimsuy".toList := by
  rw [← Pattern.all_isFlag_iff]
  constructor
  · -- No converter gives a pattern with other flags.
    exact fun h => Registry.isReadable_of_convert h
  · exact fun h => Registry.convert_canonical (v := .pattern p) h rfl

/-- **Strings and patterns are single words, and are read back.**  The text of any string is one
word that denotes this string.  The text of any pattern is one word, and it denotes this pattern,
with its source and its flags, if and only if the flags are among the letters of `gimsuy`. -/
theorem single_words_read_back :
    (∀ s : String, Token.IsSingleWord (({} : TextStyle).string s) ∧
      Registry.builtin.convert "auto" (({} : TextStyle).string s) = .ok (.string s)) ∧
    ∀ p : Pattern, Token.IsSingleWord (({} : TextStyle).pattern p) ∧
      (Registry.builtin.convert "auto" (({} : TextStyle).pattern p) = .ok (.pattern p) ↔
        p.flags.toList ⊆ "gimsuy".toList) := by
  refine ⟨fun s => ⟨?_, Registry.convert_string s⟩, fun p => ⟨?_, convert_pattern_iff⟩⟩
  · exact Token.isSingleWord_iff.mpr (isWord_string s)
  · exact Token.isSingleWord_iff.mpr (isWord_pattern p)

/-- A source with slashes at both ends of it and what could be a flag after them. -/
example : ({} : TextStyle).pattern ⟨"/a/i", ""⟩ = "re:%2F%2Fa%2Fi%2F" := by decide

end TextStyle

end ResourceQuery
