import Mathlib.Data.List.Chain
import ResourceQuery.Proofs.Token.Scan

/-!
# Cutting a text into tokens

A text is cut into words and punctuation such that no two words touch, which leaves no choice:
words are as long as they can be.  Said so, without the scanner, a cut is what grammars and counts
of words are about; the scanner finds it if there is one.

## Main definitions

* `Token.punctuation`: the characters that are tokens by themselves
* `Token.Cuts`: some tokens are the cut of a text

## Main results

* `Token.exists_scanFrom_eq`: the scanner cuts a text up to the first foreign character
* `Token.Cuts.unique`: a text has at most one cut
* `Token.cuts_iff_scanFrom`: the scanner finds the cut of a text, and nothing else
* `Token.exists_cuts_iff`: the texts that can be cut
* `Token.Cuts.intercalate`: the cut of texts with punctuation between them
-/

namespace ResourceQuery

namespace Token

open Text

/-- The characters that are tokens by themselves. -/
def punctuation : List Char := ['(', ')', ',', '&', '|']

/-- A token that is a word. -/
def IsWord (t : Token) : Prop := ∃ w, t = word w

/-- At most one of two tokens is a word. -/
def Apart (t u : Token) : Prop := ¬ (t.IsWord ∧ u.IsWord)

/-- The tokens are the cut of a text: they spell it, their words are words, and no two words
touch. -/
structure Cuts (ts : List Token) (cs : List Char) : Prop where
  spelling : spelling ts = cs
  words : ∀ w, word w ∈ ts → isWord w
  apart : ts.IsChain Apart
  /-- The end of the text is no part of it. -/
  open_ended : finish ∉ ts

/-- No word comes after a word. -/
theorem not_isWord_of_apart {ts : List Token} {t : Token} (h : (ts ++ [t]).IsChain Apart)
    {w : String} (hw : [word w] <:+ ts) : ¬ t.IsWord := by
  obtain ⟨us, rfl⟩ := hw
  obtain ⟨-, -, hlast⟩ := List.isChain_append.mp h
  exact fun ht => hlast (word w) (by simp) t (by simp) ⟨⟨w, rfl⟩, ht⟩

theorem ofPunctuation?_isSome_iff {c : Char} : (ofPunctuation? c).isSome ↔ c ∈ punctuation := by
  unfold ofPunctuation? punctuation
  split_ifs <;> simp_all

theorem not_isWord_of_ofPunctuation? {c : Char} {t : Token} (h : ofPunctuation? c = some t) :
    ¬ t.IsWord ∧ t ≠ finish := by
  unfold ofPunctuation? at h
  split_ifs at h <;> cases h <;> simp [IsWord]

/-- Every token but words and the end of the text is one character of punctuation. -/
theorem exists_ofPunctuation? {t : Token} (hword : ¬ t.IsWord) (hfinish : t ≠ finish) :
    ∃ c, ofPunctuation? c = some t := by
  cases t with
  | opening => exact ⟨'(', rfl⟩
  | closing => exact ⟨')', rfl⟩
  | comma => exact ⟨',', rfl⟩
  | ampersand => exact ⟨'&', rfl⟩
  | pipe => exact ⟨'|', rfl⟩
  | word w => exact absurd ⟨w, rfl⟩ hword
  | finish => exact absurd rfl hfinish

theorem cuts_nil : Cuts [] [] := ⟨rfl, by simp, .nil, by simp⟩

/-- The tokens behind others are the cut of their own spelling. -/
theorem Cuts.of_append {us ts : List Token} {cs : List Char} (h : Cuts (us ++ ts) cs) :
    Cuts ts (Token.spelling ts) where
  spelling := rfl
  words w hw := h.words w (List.mem_append_right us hw)
  apart := h.apart.right_of_append
  open_ended := fun hmem => h.open_ended (List.mem_append_right us hmem)

/-- The tokens in front of others are the cut of their own spelling. -/
theorem Cuts.of_append_left {us ts : List Token} {cs : List Char} (h : Cuts (us ++ ts) cs) :
    Cuts us (Token.spelling us) where
  spelling := rfl
  words w hw := h.words w (List.mem_append_left ts hw)
  apart := h.apart.left_of_append
  open_ended := fun hmem => h.open_ended (List.mem_append_left ts hmem)

theorem Cuts.tail {t : Token} {ts : List Token} {cs : List Char} (h : Cuts (t :: ts) cs) :
    Cuts ts (Token.spelling ts) :=
  @Cuts.of_append [t] ts cs h

/-- Punctuation may stand in front of any cut. -/
theorem Cuts.cons_punctuation {c : Char} {t : Token} (ht : ofPunctuation? c = some t)
    {ts : List Token} {cs : List Char} (h : Cuts ts cs) : Cuts (t :: ts) (c :: cs) := by
  obtain ⟨hword, hfinish⟩ := not_isWord_of_ofPunctuation? ht
  refine ⟨?_, fun w hw => ?_, List.isChain_cons.mpr ⟨fun u _ hboth => hword hboth.1, h.apart⟩, ?_⟩
  · rw [spelling_cons, (chars_of_ofPunctuation? ht).1, h.spelling]
    rfl
  · rcases List.mem_cons.mp hw with rfl | hw
    · exact absurd ⟨w, rfl⟩ hword
    · exact h.words w hw
  · simp [Ne.symm hfinish, h.open_ended]

/-- The tokens of a text start with a word only if the text does. -/
theorem Cuts.not_isWord_head {ts : List Token} {cs : List Char} (h : Cuts ts cs)
    (hends : EndsWord cs) : ∀ t ∈ ts.head?, ¬ t.IsWord := by
  rintro t ht ⟨w, rfl⟩
  obtain ⟨ts, rfl⟩ := List.head?_eq_some_iff.mp ht
  obtain ⟨hne, hall⟩ := isWord_iff.mp (h.words w List.mem_cons_self)
  cases hw : w.toList with
  | nil => exact hne (String.toList_eq_nil_iff.mp hw)
  | cons c w' =>
    have hc : isWordChar c := hall c (by simp [hw])
    rw [← h.spelling, spelling_cons, chars, hw, List.cons_append, endsWord_cons, hc] at hends
    cases hends

/-- A word may stand in front of a cut whose text does not go on with it. -/
theorem Cuts.cons_word {w : String} (hw : isWord w) {ts : List Token} {cs : List Char}
    (h : Cuts ts cs) (hends : EndsWord cs) : Cuts (word w :: ts) (w.toList ++ cs) where
  spelling := by rw [spelling_cons, h.spelling]; rfl
  words v hv := by
    rcases List.mem_cons.mp hv with hv | hv
    · rwa [word.inj hv]
    · exact h.words v hv
  apart := List.isChain_cons.mpr
    ⟨fun t ht hboth => h.not_isWord_head hends t ht hboth.2, h.apart⟩
  open_ended := by simp [h.open_ended]

/-- What follows a word in a cut does not go on with it. -/
theorem Cuts.endsWord_tail {w : String} {ts : List Token} {cs : List Char}
    (h : Cuts (word w :: ts) cs) : EndsWord (Token.spelling ts) := by
  cases ts with
  | nil => exact endsWord_nil
  | cons t ts =>
    have hword : ¬ t.IsWord := fun ht => (List.isChain_cons_cons.mp h.apart).1 ⟨⟨w, rfl⟩, ht⟩
    have hfinish : t ≠ finish := by
      rintro rfl
      exact h.open_ended (by simp)
    obtain ⟨c, hc⟩ := exists_ofPunctuation? hword hfinish
    obtain ⟨hchars, hc⟩ := chars_of_ofPunctuation? hc
    simpa [hchars, endsWord_cons] using hc

/-- The scanner finds the cut of a text. -/
theorem Cuts.scanFrom {ts : List Token} {cs : List Char} (h : Cuts ts cs) (position : Nat) :
    Token.scanFrom position cs = ⟨placed position ts, none⟩ := by
  induction ts generalizing position cs with
  | nil =>
    obtain rfl : [] = cs := h.spelling
    rw [Token.scanFrom, placed]
  | cons t ts ih =>
    obtain rfl := h.spelling
    by_cases hword : t.IsWord
    · obtain ⟨w, rfl⟩ := hword
      rw [spelling_cons, chars, scanFrom_word (h.words w List.mem_cons_self) h.endsWord_tail,
        ih h.tail]
      rfl
    · have hfinish : t ≠ finish := by
        rintro rfl
        exact h.open_ended (by simp)
      obtain ⟨c, hc⟩ := exists_ofPunctuation? hword hfinish
      obtain ⟨hchars, -⟩ := chars_of_ofPunctuation? hc
      rw [spelling_cons, hchars, List.singleton_append, scanFrom_punctuation hc, ih h.tail, placed,
        hchars]
      rfl

/-- The scanner cuts a text up to its end, or to the first character that belongs to no token. -/
theorem exists_scanFrom_eq (position : Nat) (cs : List Char) :
    ∃ ts rest, Cuts ts (spelling ts) ∧ spelling ts ++ rest = cs ∧
      (∀ c ∈ rest.head?, ¬ (isWordChar c ∨ c ∈ punctuation)) ∧
      Token.scanFrom position cs = ⟨placed position ts,
        rest.head?.map fun c => (c, position + (spelling ts).length)⟩ := by
  -- Along the scan: the end, punctuation, a word, and a character that is neither.
  fun_induction Token.scanFrom position cs with
  | case1 => exact ⟨[], [], cuts_nil, rfl, by simp, rfl⟩
  | case2 position c cs t ht ih =>
    obtain ⟨ts, rest, hcuts, rfl, hrest, hscan⟩ := ih
    obtain ⟨hchars, -⟩ := chars_of_ofPunctuation? ht
    have hspelling : spelling (t :: ts) = c :: spelling ts := by rw [spelling_cons, hchars]; rfl
    refine ⟨t :: ts, rest, hspelling ▸ hcuts.cons_punctuation ht, by rw [hspelling]; rfl, hrest, ?_⟩
    rw [hscan]
    simp [Scan.cons, placed, hchars, Nat.add_assoc, Nat.add_comm 1]
  | case3 position c cs _ hc text ih =>
    obtain ⟨ts, rest, hcuts, hspelling, hrest, hscan⟩ := ih
    have hword : isWord (String.ofList text) := by
      refine isWord_iff.mpr ⟨by simp [text], fun d hd => ?_⟩
      rw [String.toList_ofList] at hd
      rcases List.mem_cons.mp hd with rfl | hd
      · exact hc
      · exact List.mem_takeWhile_imp hd
    have hends : EndsWord (spelling ts) := (hspelling ▸ endsWord_dropWhile cs).of_append
    have htext : spelling (word (String.ofList text) :: ts) = text ++ spelling ts := by
      rw [spelling_cons, chars, String.toList_ofList]
    have hcons := hcuts.cons_word hword hends
    rw [String.toList_ofList, ← htext] at hcons
    refine ⟨word (String.ofList text) :: ts, rest, hcons, ?_, hrest, ?_⟩
    · rw [htext, List.append_assoc, hspelling, List.cons_append, List.takeWhile_append_dropWhile]
    · rw [hscan]
      simp [Scan.cons, placed, chars, Nat.add_assoc]
  | case4 position c cs hpunctuation hc =>
    refine ⟨[], c :: cs, cuts_nil, rfl, ?_, rfl⟩
    intro d hd
    obtain rfl : c = d := Option.some.inj hd
    rw [← ofPunctuation?_isSome_iff, hpunctuation]
    simp [hc]

/-- A text can be cut, or the scanner stops at one of its characters, which belongs to no
token. -/
theorem exists_cuts_or (position : Nat) (cs : List Char) :
    (∃ ts, Cuts ts cs) ∨ ∃ c ∈ cs, (Token.scanFrom position cs).foreign ≠ none ∧
      ¬ (isWordChar c ∨ c ∈ punctuation) := by
  obtain ⟨ts, rest, hcuts, rfl, hrest, hscan⟩ := exists_scanFrom_eq position cs
  cases rest with
  | nil => exact .inl ⟨ts, by rwa [List.append_nil]⟩
  | cons c rest => exact .inr ⟨c, by simp, by simp [hscan], hrest c rfl⟩

theorem map_token_placed (position : Nat) (ts : List Token) :
    (placed position ts).map Lexeme.token = ts := by
  induction ts generalizing position with
  | nil => rfl
  | cons t ts ih => rw [placed, List.map_cons, ih]

theorem placed_injective (position : Nat) : Function.Injective (placed position) := by
  intro ts us h
  rw [← map_token_placed position ts, h, map_token_placed position us]

/-- There is no choice where to cut. -/
theorem Cuts.unique {ts us : List Token} {cs : List Char} (hts : Cuts ts cs) (hus : Cuts us cs) :
    ts = us := by
  have hscan := (hts.scanFrom 0).symm.trans (hus.scanFrom 0)
  exact placed_injective 0 (congrArg Scan.lexemes hscan)

/-- **The scanner finds the cut of a text, and nothing else.** -/
theorem cuts_iff_scanFrom {ts : List Token} {cs : List Char} (position : Nat) :
    Cuts ts cs ↔ Token.scanFrom position cs = ⟨placed position ts, none⟩ := by
  refine ⟨fun h => h.scanFrom position, fun h => ?_⟩
  rcases exists_cuts_or position cs with ⟨us, hus⟩ | ⟨c, -, hforeign, -⟩
  · have hscan := h.symm.trans (hus.scanFrom position)
    rwa [placed_injective position (congrArg Scan.lexemes hscan)]
  · rw [h] at hforeign
    exact absurd rfl hforeign

/-- Tokens that are scanned from their own spelling are the cut of it. -/
theorem Spells.cuts {ts : List Token} (h : Spells ts) : Cuts ts (spelling ts) := by
  have hscan := h.scan
  rw [Token.scan, String.toList_ofList] at hscan
  exact (cuts_iff_scanFrom 0).mpr hscan

/-- **The texts that can be cut** have no other characters than those of words and
punctuation. -/
theorem exists_cuts_iff {cs : List Char} :
    (∃ ts, Cuts ts cs) ↔ ∀ c ∈ cs, isWordChar c ∨ c ∈ punctuation := by
  constructor
  · rintro ⟨ts, h⟩ c hc
    rw [← h.spelling] at hc
    obtain ⟨t, ht, hc⟩ := List.mem_flatMap.mp hc
    by_cases hword : t.IsWord
    · obtain ⟨w, rfl⟩ := hword
      exact .inl ((isWord_iff.mp (h.words w ht)).2 c hc)
    · have hfinish : t ≠ finish := fun heq => h.open_ended (heq ▸ ht)
      obtain ⟨d, hd⟩ := exists_ofPunctuation? hword hfinish
      rw [(chars_of_ofPunctuation? hd).1, List.mem_singleton] at hc
      subst hc
      exact .inr (ofPunctuation?_isSome_iff.mp (by simp [hd]))
  · intro h
    rcases exists_cuts_or 0 cs with hcuts | ⟨c, hc, -, hforeign⟩
    · exact hcuts
    · exact absurd (h c hc) hforeign

/-! ## Texts with punctuation between them -/

/-- Cuts can be put together around punctuation. -/
theorem Cuts.join {c : Char} {t : Token} (ht : ofPunctuation? c = some t) {ts us : List Token}
    {cs ds : List Char} (hts : Cuts ts cs) (hus : Cuts us ds) :
    Cuts (ts ++ t :: us) (cs ++ c :: ds) := by
  have hback := hus.cons_punctuation ht
  refine ⟨?_, fun w hw => ?_, ?_, ?_⟩
  · rw [spelling_append, hts.spelling, hback.spelling]
  · rcases List.mem_append.mp hw with hw | hw
    · exact hts.words w hw
    · exact hback.words w hw
  · refine List.isChain_append.mpr ⟨hts.apart, hback.apart, ?_⟩
    rintro x - y hy ⟨-, hword⟩
    obtain rfl : t = y := Option.some.inj hy
    exact (not_isWord_of_ofPunctuation? ht).1 hword
  · rw [List.mem_append, not_or]
    exact ⟨hts.open_ended, hback.open_ended⟩

/-- Cuts can be put together with punctuation between any two of them. -/
theorem Cuts.intercalate {c : Char} {t : Token} (ht : ofPunctuation? c = some t)
    {tss : List (List Token)} {css : List (List Char)} (h : List.Forall₂ Cuts tss css) :
    Cuts ([t].intercalate tss) ([c].intercalate css) := by
  induction h with
  | nil => exact cuts_nil
  | @cons ts cs tss css hts htss ih =>
    cases htss with
    | nil => simpa using hts
    | cons hus htss =>
      rw [List.intercalate_cons_cons, List.intercalate_cons_cons, List.append_assoc,
        List.append_assoc]
      exact hts.join ht ih

/-- Texts of which all characters are those of words and punctuation can be cut. -/
theorem exists_forall₂_cuts {css : List (List Char)}
    (h : ∀ cs ∈ css, ∀ c ∈ cs, isWordChar c ∨ c ∈ punctuation) :
    ∃ tss, List.Forall₂ Cuts tss css := by
  induction css with
  | nil => exact ⟨[], .nil⟩
  | cons cs css ih =>
    obtain ⟨hcs, hcss⟩ := List.forall_mem_cons.mp h
    obtain ⟨ts, hts⟩ := exists_cuts_iff.mpr hcs
    obtain ⟨tss, htss⟩ := ih hcss
    exact ⟨ts :: tss, .cons hts htss⟩

theorem subset_intercalate {c : Char} {css : List (List Char)} {cs : List Char} (h : cs ∈ css) :
    cs ⊆ [c].intercalate css := by
  induction css with
  | nil => cases h
  | cons ds css ih =>
    cases css with
    | nil => simp_all
    | cons es css =>
      rw [List.intercalate_cons_cons]
      rcases List.mem_cons.mp h with rfl | h
      · exact List.Subset.trans (List.subset_append_left cs [c]) (List.subset_append_left _ _)
      · exact List.Subset.trans (ih h) (List.subset_append_right _ _)

end Token

end ResourceQuery
