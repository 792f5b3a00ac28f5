import ResourceQuery.Proofs.Token.Cutting

/-!
# Nothing is lost in scanning

The lexemes of a text account for every one of its characters, in order and at its place, and they
are cut as far apart as they can be.  This is all there is to say about them: a list of lexemes of
which it is true is the one that the scanner gives.  The scanner fails on the other texts, and
names the first character that is to blame.

## Main definitions

* `Token.Covers`: some lexemes account for a text

## Main results

* `Token.eq_placed_iff`: lexemes stand at their places if each starts where those before it end
* `Token.tokenize_cases`: the two outcomes of scanning a text
* `Token.tokenize_lossless`: what is accepted, what is given for it, and what is refused
-/

namespace ResourceQuery

namespace Token

open Text

/-- The lexemes account for a text: they spell it, each stands at its place, their words are as
long as they can be, and the end of the text is the last of them and no other. -/
structure Covers (ls : List Lexeme) (text : String) : Prop where
  spelling : spelling (ls.map Lexeme.token) = text.toList
  start : ∀ before l after, ls = before ++ l :: after →
    l.start = (Token.spelling (before.map Lexeme.token)).length
  words : ∀ l ∈ ls, ∀ w, l.token = word w → isWord w
  apart : (ls.map Lexeme.token).IsChain Apart
  ends : ∃ before, ls = before ++ [⟨finish, text.length⟩] ∧ ∀ l ∈ before, l.token ≠ finish

/-! ## Places -/

theorem length_placed (position : Nat) (ts : List Token) :
    (placed position ts).length = ts.length := by
  rw [← List.length_map (f := Lexeme.token), map_token_placed]

/-- Lexemes stand at their places if each of them starts where those before it end. -/
theorem eq_placed_iff {position : Nat} {ls : List Lexeme} :
    ls = placed position (ls.map Lexeme.token) ↔ ∀ before l after, ls = before ++ l :: after →
      l.start = position + (spelling (before.map Lexeme.token)).length := by
  constructor
  · rintro h before l after rfl
    rw [List.map_append, placed_append, List.map_cons, placed] at h
    obtain ⟨-, h⟩ := List.append_inj h (by rw [length_placed, List.length_map])
    exact congrArg Lexeme.start (List.cons.inj h).1
  · intro h
    induction ls generalizing position with
    | nil => rfl
    | cons l ls ih =>
      have hstart : l.start = position := by simpa using h [] l ls rfl
      have hls : ls = placed (position + l.token.chars.length) (ls.map Lexeme.token) := by
        refine ih fun before m after heq => ?_
        have := h (l :: before) m after (by rw [heq, List.cons_append])
        simpa [Nat.add_assoc] using this
      rw [List.map_cons, placed, ← hls, ← hstart]

/-! ## The lexemes of a cut -/

theorem spelling_concat_finish (ts : List Token) : spelling (ts ++ [finish]) = spelling ts := by
  simp [chars]

/-- The lexemes of a cut, closed by the end of the text, account for it. -/
theorem Cuts.covers {ts : List Token} {text : String} (h : Cuts ts text.toList) :
    Covers (placed 0 ts ++ [⟨finish, text.length⟩]) text := by
  have hplaced : placed 0 ts ++ [⟨finish, text.length⟩] = placed 0 (ts ++ [finish]) := by
    rw [placed_append, h.spelling, String.length_toList, Nat.zero_add]
    rfl
  have htokens := map_token_placed 0 (ts ++ [finish])
  rw [← hplaced] at htokens
  refine ⟨?_, ?_, fun l hl w hw => ?_, ?_, placed 0 ts, rfl, fun l hl hfinish => ?_⟩
  · rw [htokens, spelling_concat_finish, h.spelling]
  · simpa using eq_placed_iff.mp (hplaced.trans (congrArg (placed 0) htokens.symm))
  · have hmem : word w ∈ ts ++ [finish] := by
      rw [← htokens, ← hw]
      exact List.mem_map_of_mem hl
    exact h.words w (by simpa using hmem)
  · rw [htokens]
    refine List.isChain_append.mpr ⟨h.apart, .singleton finish, ?_⟩
    rintro t - u hu ⟨-, w, rfl⟩
    cases hu
  · have hmem : finish ∈ ts := by
      rw [← map_token_placed 0 ts, ← hfinish]
      exact List.mem_map_of_mem hl
    exact h.open_ended hmem

/-- Lexemes that account for a text are those of a cut. -/
theorem Covers.exists_cuts {ls : List Lexeme} {text : String} (h : Covers ls text) :
    ∃ ts, Cuts ts text.toList ∧ ls = placed 0 ts ++ [⟨finish, text.length⟩] := by
  obtain ⟨before, rfl, hfinish⟩ := h.ends
  have htokens : (before ++ [(⟨finish, text.length⟩ : Lexeme)]).map Lexeme.token =
      before.map Lexeme.token ++ [finish] := by simp
  refine ⟨before.map Lexeme.token, ⟨?_, fun w hw => ?_, ?_, fun hmem => ?_⟩, ?_⟩
  · rw [← h.spelling, htokens, spelling_concat_finish]
  · obtain ⟨l, hl, hw⟩ := List.mem_map.mp hw
    exact h.words l (List.mem_append_left _ hl) w hw
  · exact (htokens ▸ h.apart).left_of_append
  · obtain ⟨l, hl, heq⟩ := List.mem_map.mp hmem
    exact hfinish l hl heq
  · -- Each lexeme starts where those before it end, also with the last one taken off.
    have hplaced : before = placed 0 (before.map Lexeme.token) := by
      refine eq_placed_iff.mpr fun front l after heq => ?_
      rw [Nat.zero_add]
      exact h.start front l (after ++ [⟨finish, text.length⟩]) (by simp [heq])
    rw [← hplaced]

/-! ## The outcomes -/

/-- A text is cut, or the scanner stops at the first of its characters that belongs to no
token. -/
theorem tokenize_cases (text : String) :
    (∃ ts, Cuts ts text.toList ∧
      tokenize text = .ok (placed 0 ts ++ [⟨finish, text.length⟩])) ∨
    ∃ before c after, text.toList = before ++ c :: after ∧
      (∀ d ∈ before, isWordChar d ∨ d ∈ punctuation) ∧ ¬ (isWordChar c ∨ c ∈ punctuation) ∧
      tokenize text = .error (.invalidCharacter c before.length) := by
  obtain ⟨ts, rest, hcuts, htext, hrest, hscan⟩ := exists_scanFrom_eq 0 text.toList
  cases rest with
  | nil =>
    rw [List.append_nil] at htext
    refine .inl ⟨ts, htext ▸ hcuts, ?_⟩
    simp [tokenize, scan, hscan, Scan.error?]
  | cons c after =>
    refine .inr ⟨spelling ts, c, after, htext.symm, exists_cuts_iff.mp ⟨ts, hcuts⟩, hrest c rfl, ?_⟩
    simp [tokenize, scan, hscan, Scan.error?]

/-- A text has one first character that belongs to no token. -/
theorem first_foreign_unique {before before' after after' : List Char} {c c' : Char}
    (h : before ++ c :: after = before' ++ c' :: after')
    (hbefore : ∀ d ∈ before, isWordChar d ∨ d ∈ punctuation)
    (hc : ¬ (isWordChar c ∨ c ∈ punctuation))
    (hbefore' : ∀ d ∈ before', isWordChar d ∨ d ∈ punctuation)
    (hc' : ¬ (isWordChar c' ∨ c' ∈ punctuation)) : before = before' ∧ c = c' := by
  have hfront : ∀ {before c after}, (∀ d ∈ before, isWordChar d ∨ d ∈ punctuation) →
      ¬ (isWordChar c ∨ c ∈ punctuation) →
      (before ++ c :: after).takeWhile (fun d => isWordChar d ∨ d ∈ punctuation) = before := by
    intro before c after hbefore hc
    rw [List.takeWhile_append_of_pos (by simpa using hbefore), List.takeWhile_cons_of_neg
      (by simpa using hc), List.append_nil]
  obtain rfl : before = before' := by rw [← hfront hbefore hc, h, hfront hbefore' hc']
  exact ⟨rfl, (List.cons.inj (List.append_cancel_left h)).1⟩

/-- **The scanner is lossless.**  It accepts the texts of word characters and punctuation, the
lexemes it gives are those that account for the text, and any other text is refused for the first
of its characters that is neither. -/
theorem tokenize_lossless (text : String) :
    ((∃ ls, tokenize text = .ok ls) ↔ ∀ c ∈ text.toList, isWordChar c ∨ c ∈ punctuation) ∧
    (∀ ls, tokenize text = .ok ls ↔ Covers ls text) ∧
    ∀ e, tokenize text = .error e ↔ ∃ before c after, text.toList = before ++ c :: after ∧
      (∀ d ∈ before, isWordChar d ∨ d ∈ punctuation) ∧ ¬ (isWordChar c ∨ c ∈ punctuation) ∧
      e = .invalidCharacter c before.length := by
  rcases tokenize_cases text with ⟨ts, hcuts, htokenize⟩ | ⟨before, c, after, htext, hbefore, hc,
    htokenize⟩
  · have hchars := exists_cuts_iff.mp ⟨ts, hcuts⟩
    refine ⟨⟨fun _ => hchars, fun _ => ⟨_, htokenize⟩⟩, fun ls => ⟨fun h => ?_, fun h => ?_⟩,
      fun e => ⟨fun h => ?_, ?_⟩⟩
    · obtain rfl := Except.ok.inj (htokenize.symm.trans h)
      exact hcuts.covers
    · obtain ⟨us, hus, rfl⟩ := h.exists_cuts
      rw [htokenize, hcuts.unique hus]
    · cases htokenize.symm.trans h
    · rintro ⟨before, c, after, htext, -, hc, -⟩
      exact absurd (hchars c (by simp [htext])) hc
  · have hforeign : ¬ ∀ d ∈ text.toList, isWordChar d ∨ d ∈ punctuation := fun h =>
      hc (h c (by simp [htext]))
    refine ⟨⟨fun ⟨ls, h⟩ => ?_, fun h => absurd h hforeign⟩, fun ls => ⟨fun h => ?_, fun h => ?_⟩,
      fun e => ⟨fun h => ?_, ?_⟩⟩
    · cases htokenize.symm.trans h
    · cases htokenize.symm.trans h
    · obtain ⟨us, hus, -⟩ := h.exists_cuts
      exact absurd (exists_cuts_iff.mp ⟨us, hus⟩) hforeign
    · exact ⟨before, c, after, htext, hbefore, hc, (Except.error.inj (htokenize.symm.trans h)).symm⟩
    · rintro ⟨before', c', after', htext', hbefore', hc', rfl⟩
      obtain ⟨rfl, rfl⟩ := first_foreign_unique (htext.symm.trans htext') hbefore hc hbefore' hc'
      exact htokenize

end Token

end ResourceQuery
