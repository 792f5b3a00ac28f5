import Mathlib.Data.List.TakeWhile
import ResourceQuery.Token

/-!
# Scanning what tokens spell

Tokens written one after the other are found again by the scanner, as long as no two words
touch.  The statement is kept for every text that may follow, so that it can be composed:
what follows must not go on with a word character.

## Main definitions

* `Text.isWord`: a non-empty run of word characters
* `Token.spelling`, `Token.placed`: the characters of some tokens, and their lexemes
* `Token.Spells`: the tokens are found in their spelling, whatever follows

## Main results

* `Token.Spells.join`: tokens may be put together around punctuation
* `Token.Spells.scan`: the scan of a spelling
* `Token.isWord_of_mem_scanFrom`: the words of a scan are words
-/

namespace ResourceQuery

namespace Text

/-- A non-empty run of word characters. -/
def isWord (w : String) : Bool := !w.isEmpty && w.toList.all isWordChar

/-- A word is a text of word characters, and there is at least one. -/
theorem isWord_iff {w : String} : isWord w ↔ w ≠ "" ∧ ∀ c ∈ w.toList, isWordChar c := by
  simp [isWord]

/-- The text does not go on with a word character. -/
def EndsWord (cs : List Char) : Prop := ∀ c ∈ cs.head?, isWordChar c = false

/-- A word ends at the end of the text. -/
theorem endsWord_nil : EndsWord [] := by
  simp [EndsWord]

theorem endsWord_cons {c : Char} {cs : List Char} :
    EndsWord (c :: cs) ↔ isWordChar c = false := by
  simp [EndsWord]

theorem EndsWord.of_append {cs ds : List Char} (h : EndsWord (cs ++ ds)) : EndsWord cs := by
  cases cs with
  | nil => exact endsWord_nil
  | cons c cs => exact endsWord_cons.mpr (endsWord_cons.mp h)

/-- Where a word ends the scanner takes no further character into it. -/
theorem EndsWord.takeWhile {cs : List Char} (h : EndsWord cs) : cs.takeWhile isWordChar = [] := by
  cases cs with
  | nil => rfl
  | cons c cs => simp [List.takeWhile, endsWord_cons.mp h]

theorem EndsWord.dropWhile {cs : List Char} (h : EndsWord cs) : cs.dropWhile isWordChar = cs := by
  cases cs with
  | nil => rfl
  | cons c cs => simp [List.dropWhile, endsWord_cons.mp h]

/-- Behind the word characters at its front a text has none. -/
theorem endsWord_dropWhile (cs : List Char) : EndsWord (cs.dropWhile isWordChar) := by
  intro c hc
  have hhead := List.head?_dropWhile_not isWordChar cs
  rwa [Option.mem_def.mp hc] at hhead

/-- **A word is taken whole** and no more than it, if it ends there. -/
theorem takeWhile_word {w cs : List Char} (hw : ∀ c ∈ w, isWordChar c) (h : EndsWord cs) :
    (w ++ cs).takeWhile isWordChar = w := by
  rw [List.takeWhile_append_of_pos hw, h.takeWhile, List.append_nil]

/-- What is left behind a word is the rest of the text. -/
theorem dropWhile_word {w cs : List Char} (hw : ∀ c ∈ w, isWordChar c) (h : EndsWord cs) :
    (w ++ cs).dropWhile isWordChar = cs := by
  rw [List.dropWhile_append_of_pos hw, h.dropWhile]

end Text

namespace Token

open Text

/-- The characters of some tokens. -/
def spelling (ts : List Token) : List Char := ts.flatMap chars

@[simp] theorem spelling_nil : spelling [] = [] := rfl

@[simp] theorem spelling_cons (t : Token) (ts : List Token) :
    spelling (t :: ts) = t.chars ++ spelling ts := rfl

@[simp] theorem spelling_append (ts us : List Token) :
    spelling (ts ++ us) = spelling ts ++ spelling us :=
  List.flatMap_append

/-- The lexemes of some tokens, the first of which stands at a position. -/
def placed (position : Nat) : List Token → List Lexeme
  | [] => []
  | t :: ts => ⟨t, position⟩ :: placed (position + t.chars.length) ts

/-- Tokens that follow others stand behind their spelling. -/
theorem placed_append (position : Nat) (ts us : List Token) :
    placed position (ts ++ us) =
      placed position ts ++ placed (position + (spelling ts).length) us := by
  induction ts generalizing position with
  | nil => simp [placed]
  | cons t ts ih => simp [placed, ih, Nat.add_assoc]

/-- The tokens are found in their spelling, whatever follows that does not go on with a
word. -/
def Spells (ts : List Token) : Prop :=
  ∀ position rest, EndsWord rest →
    scanFrom position (spelling ts ++ rest) =
      (placed position ts).foldr Scan.cons (scanFrom (position + (spelling ts).length) rest)

/-- Punctuation is one character, and none of a word. -/
theorem chars_of_ofPunctuation? {c : Char} {t : Token} (h : ofPunctuation? c = some t) :
    t.chars = [c] ∧ isWordChar c = false := by
  unfold ofPunctuation? at h
  split_ifs at h <;> cases h <;> subst c <;> decide

theorem ofPunctuation?_of_isWordChar {c : Char} (h : isWordChar c) : ofPunctuation? c = none := by
  cases hc : ofPunctuation? c with
  | none => rfl
  | some t => simp [(chars_of_ofPunctuation? hc).2] at h

/-- The scanner reads a character of punctuation as a token by itself. -/
theorem scanFrom_punctuation {c : Char} {t : Token} (h : ofPunctuation? c = some t)
    (position : Nat) (cs : List Char) :
    scanFrom position (c :: cs) = (scanFrom (position + 1) cs).cons ⟨t, position⟩ := by
  rw [scanFrom, h]

/-- The scanner reads a word up to where it ends. -/
theorem scanFrom_word {w : String} (hw : isWord w) {rest : List Char} (hr : EndsWord rest)
    (position : Nat) :
    scanFrom position (w.toList ++ rest) =
      (scanFrom (position + w.toList.length) rest).cons ⟨word w, position⟩ := by
  obtain ⟨hne, hall⟩ := isWord_iff.mp hw
  cases hcs : w.toList with
  | nil => exact absurd (String.toList_eq_nil_iff.mp hcs) hne
  | cons c cs =>
    rw [hcs] at hall
    obtain ⟨hc, htail⟩ := List.forall_mem_cons.mp hall
    rw [List.cons_append, scanFrom, ofPunctuation?_of_isWordChar hc]
    simp only [hc, if_true, takeWhile_word htail hr, dropWhile_word htail hr, ← hcs,
      String.ofList_toList]

theorem spells_nil : Spells [] := by
  intro position rest _
  simp [placed]

theorem spells_word {w : String} (hw : isWord w) : Spells [word w] := by
  intro position rest hr
  simp [placed, chars, scanFrom_word hw hr]

/-- Punctuation may stand in front of any tokens: only the positions change, by one. -/
theorem Spells.cons {c : Char} {t : Token} (ht : ofPunctuation? c = some t) {ts : List Token}
    (hts : Spells ts) : Spells (t :: ts) := by
  intro position rest hr
  obtain ⟨hchars, -⟩ := chars_of_ofPunctuation? ht
  simp only [spelling_cons, hchars, List.cons_append, List.nil_append, placed,
    List.foldr_cons, List.length_cons, List.length_nil]
  rw [scanFrom_punctuation ht, hts _ _ hr]
  congr 3
  omega

/-- Punctuation ends a word, so tokens can be put together around it. -/
theorem Spells.join {c : Char} {t : Token} (ht : ofPunctuation? c = some t) {ts us : List Token}
    (hts : Spells ts) (hus : Spells us) : Spells (ts ++ t :: us) := by
  intro position rest hr
  obtain ⟨hchars, hc⟩ := chars_of_ofPunctuation? ht
  have hends : EndsWord (spelling (t :: us) ++ rest) := by
    simp [hchars, endsWord_cons, hc]
  rw [spelling_append, List.append_assoc, hts _ _ hends, Spells.cons ht hus _ _ hr, placed_append,
    List.foldr_append, List.length_append, Nat.add_assoc]

theorem foldr_scanCons (ls : List Lexeme) (s : Scan) :
    ls.foldr Scan.cons s = ⟨ls ++ s.lexemes, s.foreign⟩ := by
  induction ls with
  | nil => rfl
  | cons l ls ih => rw [List.foldr_cons, ih]; rfl

/-- The scan of a spelling. -/
theorem Spells.scan {ts : List Token} (h : Spells ts) :
    Token.scan (String.ofList (spelling ts)) = ⟨placed 0 ts, none⟩ := by
  have hscan := h 0 [] endsWord_nil
  rw [List.append_nil] at hscan
  rw [Token.scan, String.toList_ofList, hscan, foldr_scanCons, scanFrom]
  simp

/-- The words of a scan are words. -/
theorem isWord_of_mem_scanFrom {position : Nat} {cs : List Char} {l : Lexeme} {w : String}
    (hl : l ∈ (scanFrom position cs).lexemes) (hw : l.token = word w) : isWord w := by
  -- Along the scan: the end, punctuation, a word, and a character that is neither.
  fun_induction scanFrom position cs with
  | case1 => cases hl
  | case2 position c cs t ht ih =>
    rcases List.mem_cons.mp hl with rfl | hl
    · unfold ofPunctuation? at ht
      split_ifs at ht <;> cases ht <;> cases hw
    · exact ih hl
  | case3 position c cs _ hc text ih =>
    rcases List.mem_cons.mp hl with rfl | hl
    · obtain rfl := word.inj hw
      refine isWord_iff.mpr ⟨fun h => ?_, fun d hd => ?_⟩
      · simp [text] at h
      · rw [String.toList_ofList] at hd
        rcases List.mem_cons.mp hd with rfl | hd
        · exact hc
        · exact List.mem_takeWhile_imp hd
    · exact ih hl
  | case4 => cases hl

end Token

end ResourceQuery
