import Mathlib.Tactic
import ResourceQuery.Text.Percent
import ResourceQuery.Text.Word

/-!
# Percent encoding, undone

Decoding an encoded text gives the text back, whatever characters are in it.  An encoded text
consists of word characters, and there is no colon among them, so that it is read as one word
which names no converter.

## Main results

* `Percent.decode_encode`: decoding undoes encoding
* `Percent.decode_eq_self`: a text without `%` stands for itself
* `Percent.isWordChar_of_mem_encode`, `Percent.colon_notMem_encode`: the characters of an
  encoded text
-/

namespace ResourceQuery

namespace Percent

/-- A hexadecimal digit is read as the number it was written for. -/
theorem hexValue?_hexDigit {n : ℕ} (h : n < 16) : hexValue? (hexDigit n) = some n := by
  interval_cases n <;> rfl

/-- What is no percent sign stands for its own bytes. -/
theorem decodeBytes_cons_of_ne {c : Char} (h : c ≠ '%') (rest : List Char) :
    decodeBytes (c :: rest) = String.utf8EncodeChar c ++ decodeBytes rest := by
  rw [decodeBytes]
  rintro high low rest' rfl
  exact absurd rfl h

/-- An escape stands for its byte. -/
theorem decodeBytes_escapeByte (b : UInt8) (rest : List Char) :
    decodeBytes (escapeByte b ++ rest) = b :: decodeBytes rest := by
  have hb : b.toNat < 256 := b.toNat_lt
  have hescaped : escaped? (hexDigit (b.toNat / 16)) (hexDigit (b.toNat % 16)) = some b := by
    rw [escaped?, hexValue?_hexDigit (by omega), hexValue?_hexDigit (by omega)]
    simp [Nat.div_add_mod]
  simp only [escapeByte, List.cons_append, List.nil_append]
  rw [decodeBytes, hescaped]

/-- Escaped bytes are decoded to themselves, whatever follows. -/
theorem decodeBytes_escapeBytes (bs : List UInt8) (rest : List Char) :
    decodeBytes (bs.flatMap escapeByte ++ rest) = bs ++ decodeBytes rest := by
  induction bs with
  | nil => rfl
  | cons b bs ih =>
    rw [List.flatMap_cons, List.append_assoc, decodeBytes_escapeByte, ih, List.cons_append]

theorem decodeBytes_encodeChar (c : Char) (rest : List Char) :
    decodeBytes (encodeChar c ++ rest) = String.utf8EncodeChar c ++ decodeBytes rest := by
  unfold encodeChar
  split
  · next h =>
    have hne : c ≠ '%' := by rintro rfl; exact absurd h (by decide)
    exact decodeBytes_cons_of_ne hne rest
  · exact decodeBytes_escapeBytes _ rest

/-- **Encoded text is decoded to its bytes.** -/
theorem decodeBytes_encode (cs : List Char) :
    decodeBytes (cs.flatMap encodeChar) = cs.flatMap String.utf8EncodeChar := by
  induction cs with
  | nil => rw [List.flatMap_nil, decodeBytes, List.flatMap_nil]
  | cons c cs ih => rw [List.flatMap_cons, decodeBytes_encodeChar, ih, List.flatMap_cons]

/-- A text without percent signs is decoded to its own bytes. -/
theorem decodeBytes_of_notMem {cs : List Char} (h : '%' ∉ cs) :
    decodeBytes cs = cs.flatMap String.utf8EncodeChar := by
  induction cs with
  | nil => rw [decodeBytes, List.flatMap_nil]
  | cons c cs ih =>
    simp only [List.mem_cons, not_or] at h
    rw [decodeBytes_cons_of_ne (Ne.symm h.1), ih h.2, List.flatMap_cons]

theorem toByteArray_eq (s : String) :
    (⟨(s.toList.flatMap String.utf8EncodeChar).toArray⟩ : ByteArray) = s.toByteArray := by
  conv_rhs => rw [← String.ofList_toList (s := s), String.toByteArray_ofList, List.utf8Encode]
  exact ByteArray.ext List.data_toByteArray.symm

/-- The UTF-8 form of a text is read as that text. -/
theorem fromUTF8?_flatMap (s : String) :
    String.fromUTF8? ⟨(s.toList.flatMap String.utf8EncodeChar).toArray⟩ = some s := by
  rw [toByteArray_eq, String.fromUTF8?, dif_pos s.isValidUTF8]
  rfl

/-- A decoded text has the bytes that were decoded. -/
theorem flatMap_of_decode? {s t : String} (h : decode? s = some t) :
    t.toList.flatMap String.utf8EncodeChar = decodeBytes s.toList := by
  unfold decode? String.fromUTF8? at h
  split_ifs at h
  have hbytes := toByteArray_eq t
  rw [← Option.some.inj h] at hbytes ⊢
  exact congrArg Array.toList (congrArg ByteArray.data hbytes)

/-- **Decoding undoes encoding.** -/
@[simp] theorem decode_encode (s : String) : decode (encode s) = s := by
  rw [decode, decode?, toList_encode, decodeBytes_encode, fromUTF8?_flatMap, Option.getD_some]

/-- A text without escapes stands for itself. -/
theorem decode_eq_self {s : String} (h : '%' ∉ s.toList) : decode s = s := by
  rw [decode, decode?, decodeBytes_of_notMem h, fromUTF8?_flatMap, Option.getD_some]

/-! ## The characters of an encoded text -/

/-- The characters that encoding puts into a text. -/
def isEncodedChar (c : Char) : Bool := isUnreserved c || c == '%'

theorem isEncodedChar_of_mem_escapeByte {b : UInt8} {c : Char} (h : c ∈ escapeByte b) :
    isEncodedChar c := by
  have hb : b.toNat < 256 := b.toNat_lt
  have hdigit : ∀ n < 16, isEncodedChar (hexDigit n) := by decide
  simp only [escapeByte, List.mem_cons, List.not_mem_nil, or_false] at h
  rcases h with rfl | rfl | rfl
  · rfl
  · exact hdigit _ (by omega)
  · exact hdigit _ (by omega)

/-- Encoding gives letters, digits, a few signs and escapes only. -/
theorem isEncodedChar_of_mem_encode {s : String} {c : Char} (h : c ∈ (encode s).toList) :
    isEncodedChar c := by
  rw [toList_encode, List.mem_flatMap] at h
  obtain ⟨d, -, hc⟩ := h
  unfold encodeChar at hc
  split at hc
  · next hd =>
    obtain rfl := List.mem_singleton.mp hc
    simp [isEncodedChar, hd]
  · obtain ⟨b, -, hb⟩ := List.mem_flatMap.mp hc
    exact isEncodedChar_of_mem_escapeByte hb

/-- All that encoding gives can stand in a word. -/
theorem isWordChar_of_mem_encode {s : String} {c : Char} (h : c ∈ (encode s).toList) :
    Text.isWordChar c := by
  have hc := isEncodedChar_of_mem_encode h
  simp only [isEncodedChar, isUnreserved, Bool.or_eq_true, beq_iff_eq] at hc
  simp only [Text.isWordChar, Text.isNameChar, Bool.or_eq_true, beq_iff_eq]
  rcases hc with (((hc | rfl) | rfl) | rfl) | rfl
  · exact .inl (.inl hc)
  all_goals decide

/-- There is no colon in an encoded text, so it never looks like a tag. -/
theorem colon_notMem_encode (s : String) : ':' ∉ (encode s).toList := fun h =>
  absurd (isEncodedChar_of_mem_encode h) (by decide)

end Percent

end ResourceQuery
