import ResourceQuery.Proofs.Parser.Grammar

/-!
# Errors name their culprits

An error of the parser says what is wrong with a text and where.  What it says is true: the
character at the position is the one it speaks of, and the tokens before it are such that it can not
stand there.

The machine fails at one token, after a run over the tokens before it, and what it knows of these is
enough to blame the token.  A foreign character is blamed only if the machine has taken all tokens
before it.  A parenthesis that is never closed is blamed at the end of the text, long after it was
read; its position is carried along by the term that it opened, while the terms inside of it are
pushed and popped.

Converters that a host program provides may refuse a word with any error they like, so what such an
error says need not be true of the text.  The built-in ones say that the value is invalid.

## Main definitions

* `Parser.Culprit`: what an error says is true of a text
* `Parser.Refuses`: a converter refuses a word of a text
* `Parser.OpenedAfter`: the positions of the parentheses that some tokens leave open
* `Parser.relaying`: a parser with a converter that hands words on to other ones

## Main results

* `Parser.step_rejects`: why a step fails
* `Parser.OpenedAfter.step`, `Parser.Runs.openedAfter`: where the open terms were opened
* `Parser.culprit_of_parse`: an error of the parser names its culprit
-/

namespace ResourceQuery

/-- A computation in two steps fails in one of them. -/
theorem cases_of_bind_eq_error {ε α β : Type} {x : Except ε α} {f : α → Except ε β} {e : ε}
    (h : x >>= f = .error e) : x = .error e ∨ ∃ a, x = .ok a ∧ f a = .error e := by
  cases x with
  | error e' =>
    cases h
    exact .inl rfl
  | ok a => exact .inr ⟨a, rfl, h⟩

theorem eq_error_of_map_eq_error {ε α β : Type} {x : Except ε α} {f : α → β} {e : ε}
    (h : x.map f = .error e) : x = .error e := by
  cases x with
  | error e' =>
    cases h
    rfl
  | ok a => cases h

namespace Token

open Text

/-- No front part closes more than it opens. -/
def Nested (ts : List Token) : Prop := ∀ us, us <+: ts → us.count closing ≤ us.count opening

/-- A word of a text that stands for a value: where it ends there is no `(`. -/
def IsValueWord (cs : List Char) (w : String) : Prop :=
  ∃ ts i, Cuts (ts ++ [word w]) (cs.take i) ∧ EndsWord (cs.drop i) ∧ cs[i]? ≠ some '('

/-- The only value word of a text that is a word is that word. -/
theorem IsValueWord.eq_of_isWord {v w : String} (h : IsValueWord w.toList v) (hw : isWord w) :
    v = w := by
  obtain ⟨ts, i, hcuts, hends, -⟩ := h
  have hwhole : w.toList.drop i = [] := by
    cases hdrop : w.toList.drop i with
    | nil => rfl
    | cons c back =>
      have hc : c ∈ w.toList.drop i := hdrop ▸ List.mem_cons_self
      rw [hdrop, endsWord_cons, (isWord_iff.mp hw).2 c (List.mem_of_mem_drop hc)] at hends
      cases hends
  rw [List.take_of_length_le (List.drop_eq_nil_iff.mp hwhole)] at hcuts
  have hword : Cuts [word w] w.toList := by
    simpa using cuts_nil.cons_word hw endsWord_nil
  obtain ⟨-, hlast⟩ := List.append_inj' (hcuts.unique hword : ts ++ [word v] = [] ++ [word w]) rfl
  exact word.inj (List.singleton_injective hlast)

/-- A character of punctuation in a text stands right after the tokens before it. -/
theorem Cuts.take_drop {us vs : List Token} {t : Token} {cs : List Char}
    (h : Cuts (us ++ t :: vs) cs) {c : Char} (ht : ofPunctuation? c = some t) (rest : List Char) :
    Cuts us ((cs ++ rest).take (Token.spelling us).length) ∧
      ∃ back, (cs ++ rest).drop (Token.spelling us).length = c :: back := by
  have htext : cs ++ rest = Token.spelling us ++ c :: (Token.spelling vs ++ rest) := by
    rw [← h.spelling, spelling_append, spelling_cons, (chars_of_ofPunctuation? ht).1]
    simp
  rw [htext, List.take_left, List.drop_left]
  exact ⟨h.of_append_left, _, rfl⟩

end Token

namespace Converter

/-- A converter refuses a text as an invalid value, if it does. -/
def RefusesValues (c : Converter) : Prop :=
  ∀ body e, c body = .error e → ∃ converter value, e = .invalidValue converter value

theorem refusesValues_ok (f : String → Value) : RefusesValues fun w => .ok (f w) := by
  intro body e h
  cases h

theorem refusesValues_dated (name : String) (read : List Char → Option Instant) :
    RefusesValues (dated name read) := by
  intro body e h
  unfold dated at h
  split at h
  · cases h
  · cases h
    exact ⟨name, body, rfl⟩

theorem refusesValues_number : RefusesValues number := by
  intro body e h
  unfold number at h
  dsimp only at h
  split_ifs at h
  split at h
  · cases h
  · cases h
    exact ⟨"number", body, rfl⟩

end Converter

namespace Registry

/-- The converters of a registry refuse a text as an invalid value, if they do. -/
def RefusesValues (r : Registry) : Prop := ∀ entry ∈ r.entries, Converter.RefusesValues entry.2

/-- The built-in converters refuse a text as an invalid value, those that refuse any. -/
theorem refusesValues_builtin : builtin.RefusesValues := by
  simp only [RefusesValues, builtin, List.forall_mem_cons, List.not_mem_nil, false_implies,
    implies_true, and_true]
  exact ⟨Converter.refusesValues_ok _, Converter.refusesValues_ok _, Converter.refusesValues_number,
    Converter.refusesValues_ok _, Converter.refusesValues_ok _, Converter.refusesValues_ok _,
    Converter.refusesValues_dated _ _, Converter.refusesValues_dated _ _,
    Converter.refusesValues_dated _ _, Converter.refusesValues_ok _, Converter.refusesValues_ok _⟩

end Registry

namespace Parser

open Text Token

/-- A word selects the converter that it names before its first colon, or else the default one. -/
def Selects (p : Parser) (w name : String) : Prop :=
  (':' ∉ name.toList ∧ ∃ body, w = name ++ ":" ++ body) ∨
    (':' ∉ w.toList ∧ name = p.dialect.defaultConverter)

/-- The converter of a word of a text refuses it with an error. -/
def Refuses (p : Parser) (cs : List Char) (e : Error) : Prop :=
  ∃ w c, IsValueWord cs w ∧
    p.registry.find? (Registry.split p.dialect.defaultConverter w).1 = some c ∧
    c (Registry.split p.dialect.defaultConverter w).2 = .error e

/-- A sign can not stand in the group that the tokens leave open: there is another sign directly in
it, or it was opened right after another word. -/
def Mixes (ts : List Token) (name : String) : Prop :=
  (∃ x m, Reaches [x] ts ∧ x.groupName? = some m ∧ m ≠ name) ∨
    ∃ w, Reaches [.word w, .opening] ts ∧ w ≠ name

/-- What an error says is true of a text. -/
def Culprit (p : Parser) (cs : List Char) : Error → Prop
  | .invalidCharacter c i =>
    -- It is the first one that belongs to no token.
    cs[i]? = some c ∧ ¬ (isWordChar c ∨ c ∈ punctuation) ∧
      ∀ d ∈ cs.take i, isWordChar d ∨ d ∈ punctuation
  | .mixedConjunction i =>
    ∃ (ts : List Token) (sign : Token) (name : String), Cuts ts (cs.take i) ∧
      cs[i]? = sign.chars.head? ∧ sign.groupName? = some name ∧ Mixes ts name
  | .emptyValue i =>
    p.dialect.emptyArguments = false ∧ ∃ ts, Cuts ts (cs.take i) ∧ cs[i]? = some ',' ∧ Gap ts
  | .unmatchedParenthesis i =>
    (∃ ts, Cuts ts (cs.take i) ∧ cs[i]? = some ')' ∧ Balanced ts) ∨
      -- After the last `(` that is never closed all others are.
      ∃ us vs, Cuts (us ++ .opening :: vs) cs ∧ i = (spelling us).length ∧
        Nested (us ++ .opening :: vs) ∧ Balanced vs
  | .unknownConverter name =>
    ∃ w, IsValueWord cs w ∧ p.Selects w name ∧ p.registry.find? name = none
  | .invalidValue converter value => p.Refuses cs (.invalidValue converter value)

variable {p : Parser} {ts us vs : List Token} {t : Token} {s s' : State} {position : Nat} {e : Error}

/-! ## Words -/

/-- The name that a word is split at is the one it selects. -/
theorem selects_split (p : Parser) (w : String) :
    p.Selects w (Registry.split p.dialect.defaultConverter w).1 := by
  by_cases hcolon : ':' ∈ w.toList
  · left
    obtain ⟨name, body, hlist, hname⟩ := List.eq_append_cons_of_mem hcolon
    obtain rfl : w = String.ofList name ++ ":" ++ String.ofList body := by
      rw [← String.toList_inj, hlist]
      simp
    have htag : ':' ∉ (String.ofList name).toList := by rwa [String.toList_ofList]
    rw [Registry.split_tagged htag]
    exact ⟨htag, _, rfl⟩
  · right
    rw [Registry.split_of_notMem hcolon]
    exact ⟨hcolon, rfl⟩

/-- A word that can not be converted. -/
theorem culprit_of_convert {cs : List Char} {w : String} (hw : IsValueWord cs w)
    (h : p.convert w = .error e) : p.Culprit cs e ∨ p.Refuses cs e := by
  have hconvert : p.registry.convert p.dialect.defaultConverter w = .error e :=
    eq_error_of_map_eq_error h
  unfold Registry.convert at hconvert
  dsimp only at hconvert
  split at hconvert
  · next c hc => exact .inr ⟨w, c, hw, hc, hconvert⟩
  · next hnone =>
    cases hconvert
    exact .inl ⟨w, hw, p.selects_split w, hnone⟩

/-! ## One token -/

/-- Why a token is refused that stands at a position, after some others. -/
inductive Rejects (p : Parser) (ts : List Token) (position : Nat) : Token → Error → Prop
  | word {t : Token} {w : String} {e : Error} (hw : [.word w] <:+ ts) (h : p.convert w = .error e) :
      Rejects p ts position t e
  | unmatched (hts : Balanced ts) :
      Rejects p ts position .closing (.unmatchedParenthesis position)
  | gap (hempty : p.dialect.emptyArguments = false) (hgap : Gap ts) :
      Rejects p ts position .comma (.emptyValue position)
  | mixed {t : Token} {name : String} (hsign : t.groupName? = some name) (hmixes : Mixes ts name) :
      Rejects p ts position t (.mixedConjunction position)

theorem exists_of_flush_eq_error (h : p.flush s = .error e) :
    ∃ w, s.slot = .word w ∧ p.convert w = .error e := by
  unfold flush at h
  split at h
  · next w hw =>
    rcases cases_of_bind_eq_error h with h | ⟨n, -, h⟩
    · exact ⟨w, hw, h⟩
    · cases h
  · cases h

/-- Reading the word that waits fails only at its conversion. -/
theorem rejects_of_flush (h : p.flush s = .error e) (hslot : SlotAfter ts s.slot) :
    p.Rejects ts position t e := by
  obtain ⟨w, hw, hconvert⟩ := exists_of_flush_eq_error h
  exact .word ((hslot.word w).mp hw) hconvert

/-- At the bottom of the stack everything that was opened is closed. -/
theorem State.After.balanced (hs : s.After ts) (houter : s.outer = []) : Balanced ts := by
  have hnames := hs.names
  rw [houter] at hnames
  cases hnames with
  | root hts _ => exact hts
  | inner h _ _ => cases h

theorem rejects_of_closeTerm (hs : s.After ts) (h : p.closeTerm position s = .error e) :
    p.Rejects ts position .closing e := by
  rcases cases_of_bind_eq_error h with hflush | ⟨s₁, hflush, h⟩
  · exact rejects_of_flush hflush hs.slot
  · split at h
    · next houter =>
      cases h
      exact .unmatched (hs.balanced (outer_of_flush hflush ▸ houter))
    · cases h

theorem rejects_of_separate (hs : s.After ts) (h : p.separate position s = .error e) :
    p.Rejects ts position .comma e := by
  unfold separate at h
  split at h
  · cases h
  · next hslot =>
    split_ifs at h with hempty
    · cases h
    · cases h
      exact .gap (by simpa using hempty) (hs.slot.separated.mp hslot)
  · next w hw =>
    rcases cases_of_bind_eq_error h with h | ⟨n, -, h⟩
    · exact .word ((hs.slot.word w).mp hw) h
    · cases h

/-- Why a sign is refused: its group has another name, which is that of a sign in the group or of
the word before it. -/
theorem rejects_of_conjoin (hs : s.After ts) {name : String} (hsign : t.groupName? = some name)
    (h : p.conjoin name position s = .error e) : p.Rejects ts position t e := by
  unfold conjoin at h
  split_ifs at h with hmixed
  · cases h
    obtain ⟨m, hm, hne⟩ : ∃ m, s.frame.name = some m ∧ m ≠ name := by
      by_contra hsame
      exact not_any_name_iff.mpr (by simpa using hsame) hmixed
    refine .mixed hsign ?_
    rcases hs.names.head.origin m hm with ⟨x, hx, hxm⟩ | hw
    · exact .inl ⟨x, m, hx, hxm, hne⟩
    · exact .inr ⟨m, hw, hne⟩
  · dsimp only at h
    split at h
    · exact rejects_of_flush h hs.slot
    · cases h

/-- **Why a step fails.**  It is never a word or a `(` that is refused. -/
theorem step_rejects (hs : s.After ts) (h : p.step s ⟨t, position⟩ = .error e) :
    ∃ c, ofPunctuation? c = some t ∧ c ≠ '(' ∧ p.Rejects ts position t e := by
  cases t with
  | word w => cases h
  | opening => cases h
  | closing => exact ⟨')', rfl, by decide, rejects_of_closeTerm hs h⟩
  | comma => exact ⟨',', rfl, by decide, rejects_of_separate hs h⟩
  | ampersand => exact ⟨'&', rfl, by decide, rejects_of_conjoin hs rfl h⟩
  | pipe => exact ⟨'|', rfl, by decide, rejects_of_conjoin hs rfl h⟩
  | finish => cases h

/-! ## Where the open terms were opened -/

/-- The positions of the parentheses that the tokens leave open, the innermost first and then that
of the root, which may be any. -/
inductive OpenedAfter : List Token → List Nat → Prop
  | root {ts : List Token} {position : Nat} (hts : Balanced ts) : OpenedAfter ts [position]
  | inner {us vs : List Token} {positions : List Nat} (h : OpenedAfter us positions)
      (hvs : Balanced vs) : OpenedAfter (us ++ .opening :: vs) ((spelling us).length :: positions)

/-- The positions where the open terms were opened, the innermost first. -/
def State.opened (s : State) : List Nat := (s.frame :: s.outer).map Frame.openedAt

namespace OpenedAfter

variable {positions : List Nat}

/-- Balanced tokens leave no further term open. -/
theorem append (h : OpenedAfter ts positions) (hvs : Balanced vs) :
    OpenedAfter (ts ++ vs) positions := by
  cases h with
  | root hts => exact .root (hts.append hvs)
  | inner h hus =>
    rw [List.append_assoc, List.cons_append]
    exact .inner h (hus.append hvs)

theorem concat (h : OpenedAfter ts positions) (hopening : t ≠ .opening) (hclosing : t ≠ .closing) :
    OpenedAfter (ts ++ [t]) positions :=
  h.append (balanced_singleton hopening hclosing)

/-- Behind a `)` the innermost of the open terms is closed. -/
theorem concat_closing (h : OpenedAfter ts (position :: positions)) (hpositions : positions ≠ []) :
    OpenedAfter (ts ++ [.closing]) positions := by
  cases h with
  | root => exact absurd rfl hpositions
  | inner h hvs =>
    rw [List.append_assoc, List.cons_append]
    exact h.append hvs.group

/-- The innermost of the open terms was opened last. -/
theorem exists_opening (h : OpenedAfter ts (position :: positions)) (hpositions : positions ≠ []) :
    ∃ us vs, ts = us ++ .opening :: vs ∧ position = (spelling us).length ∧ Balanced vs := by
  cases h with
  | root => exact absurd rfl hpositions
  | inner h hvs => exact ⟨_, _, rfl, rfl, hvs⟩

theorem nested (h : OpenedAfter ts positions) : Nested ts := by
  induction h with
  | root hts => exact hts.nested
  | @inner us vs _ h hvs ih =>
    intro as has
    rcases List.prefix_or_prefix_of_prefix has (List.prefix_append us (.opening :: vs)) with
      has | ⟨bs, rfl⟩
    · exact ih as has
    · have hus := ih us (List.prefix_refl us)
      rcases List.prefix_cons_iff.mp ((List.prefix_append_right_inj us).mp has) with
        rfl | ⟨bs, rfl, hbs⟩
      · simpa using hus
      · have hbs := hvs.nested bs hbs
        simp
        omega

/-- **One token: where the open terms were opened.** -/
theorem step (hs : OpenedAfter ts s.opened)
    (h : p.step s ⟨t, (spelling ts).length⟩ = .ok s') : OpenedAfter (ts ++ [t]) s'.opened := by
  cases t with
  | word w =>
    cases h
    exact hs.concat (by simp) (by simp)
  | opening =>
    cases h
    exact .inner hs balanced_nil
  | closing =>
    obtain ⟨parent, outer, args, captures, houter, rfl⟩ := exists_of_closeTerm h
    rw [State.opened, houter] at hs
    exact hs.concat_closing (by simp)
  | comma =>
    obtain ⟨args, rfl⟩ := exists_of_separate h
    exact hs.concat (by simp) (by simp)
  | ampersand =>
    obtain ⟨-, args, slot, rfl, -⟩ := exists_of_conjoin h
    exact hs.concat (by simp) (by simp)
  | pipe =>
    obtain ⟨-, args, slot, rfl, -⟩ := exists_of_conjoin h
    exact hs.concat (by simp) (by simp)
  | finish =>
    cases h
    exact hs.concat (by simp) (by simp)

end OpenedAfter

/-- A run: where the open terms were opened. -/
theorem Runs.openedAfter (h : p.Runs 0 .start ts s) : OpenedAfter ts s.opened := by
  induction ts using List.reverseRecOn generalizing s with
  | nil =>
    cases h
    exact .root balanced_nil
  | append_singleton ts t ih =>
    obtain ⟨s₁, hs₁, h⟩ := runs_concat_iff.mp h
    rw [Nat.zero_add] at h
    exact (ih hs₁).step h

/-! ## Runs that fail -/

/-- A run that fails does so at one of its tokens. -/
theorem exists_of_foldlM_eq_error
    (h : (placed position ts).foldlM p.step s = .error e) :
    ∃ us t vs s₁, ts = us ++ t :: vs ∧ p.Runs position s us s₁ ∧
      p.step s₁ ⟨t, position + (spelling us).length⟩ = .error e := by
  induction ts generalizing position s with
  | nil => cases h
  | cons t ts ih =>
    rw [placed, List.foldlM_cons] at h
    rcases cases_of_bind_eq_error h with hstep | ⟨s₁, hstep, h⟩
    · exact ⟨[], t, ts, s, rfl, runs_nil, by simpa using hstep⟩
    · obtain ⟨us, u, vs, s₂, rfl, hruns, hfails⟩ := ih h
      refine ⟨t :: us, u, vs, s₂, rfl, .cons hstep hruns, ?_⟩
      rwa [spelling_cons, List.length_append, ← Nat.add_assoc]

/-- A token that is refused is the culprit, if it is not the word before it. -/
theorem Rejects.culprit {c : Char} {cs back : List Char} {i : Nat} (h : p.Rejects ts i t e)
    (ht : ofPunctuation? c = some t) (hc : c ≠ '(') (hcuts : Cuts ts (cs.take i))
    (hback : cs.drop i = c :: back) : p.Culprit cs e ∨ p.Refuses cs e := by
  obtain ⟨hchars, hword⟩ := chars_of_ofPunctuation? ht
  have hat : cs[i]? = some c := by rw [← List.head?_drop, hback]; rfl
  cases h with
  | word hw h =>
    -- The token ends the word, and is no `(` that would make a name of it.
    obtain ⟨us, rfl⟩ := hw
    refine culprit_of_convert ⟨us, i, hcuts, ?_, ?_⟩ h
    · rw [hback]
      exact endsWord_cons.mpr hword
    · simpa [hat] using hc
  | unmatched hts =>
    obtain rfl := List.singleton_inj.mp hchars
    exact .inl (.inl ⟨ts, hcuts, hat, hts⟩)
  | gap hempty hgap =>
    obtain rfl := List.singleton_inj.mp hchars
    exact .inl ⟨hempty, ts, hcuts, hat, hgap⟩
  | @mixed _ name hsign hmixes =>
    exact .inl ⟨ts, t, name, hcuts, by rw [hat, hchars]; rfl, hsign, hmixes⟩

/-- **The end of a text**: a term is open, or a word is left. -/
theorem culprit_of_finish {cs : List Char} (hcuts : Cuts ts cs) (hruns : p.Runs 0 .start ts s)
    (h : p.finish s = .error e) : p.Culprit cs e ∨ p.Refuses cs e := by
  unfold finish at h
  extract_lets rest at h
  split_ifs at h with houter
  · cases h
    have hopened := hruns.openedAfter
    obtain ⟨us, vs, rfl, hposition, hvs⟩ := hopened.exists_opening (by simpa using houter)
    exact .inl (.inr ⟨us, vs, hcuts, hposition, hopened.nested, hvs⟩)
  · rcases cases_of_bind_eq_error h with hflush | ⟨s₁, -, h⟩
    · obtain ⟨w, hw, hconvert⟩ := exists_of_flush_eq_error hflush
      obtain ⟨us, rfl⟩ := ((hruns.after hcuts.open_ended).slot.word w).mp hw
      refine culprit_of_convert ⟨us, cs.length, ?_, ?_, ?_⟩ hconvert
      · rwa [List.take_length]
      · rw [List.drop_length]
        exact endsWord_nil
      · simp
    · cases h

/-- A run that fails blames one of its tokens, a foreign character or the end of the text. -/
theorem culprit_of_run {text : String} (h : p.run text = .error e) :
    p.Culprit (p.dialect.expand text).toList e ∨ p.Refuses (p.dialect.expand text).toList e := by
  unfold run runExpanded at h
  generalize p.dialect.expand text = expanded at h
  obtain ⟨ts, rest, hcuts, htext, hrest, hscan⟩ := exists_scanFrom_eq 0 expanded.toList
  rw [Token.scan, hscan] at h
  rw [← htext]
  rcases cases_of_bind_eq_error h with hrun | ⟨s, hruns, h⟩
  · obtain ⟨us, t, vs, s, rfl, hruns, hstep⟩ := exists_of_foldlM_eq_error hrun
    rw [Nat.zero_add] at hstep
    obtain ⟨c, ht, hc, hrejects⟩ :=
      step_rejects (hruns.after hcuts.of_append_left.open_ended) hstep
    obtain ⟨hbefore, back, hback⟩ := hcuts.take_drop ht rest
    exact hrejects.culprit ht hc hbefore hback
  · -- The machine has taken all tokens, so it is the scanner that fails or the end of the text.
    cases rest with
    | nil =>
      rw [List.append_nil]
      exact culprit_of_finish hcuts hruns h
    | cons c rest =>
      cases h
      refine .inl ⟨by simp, hrest c rfl, ?_⟩
      rw [Nat.zero_add, List.take_left]
      exact exists_cuts_iff.mp ⟨ts, hcuts⟩

/-- **An error of the parser names its culprit**, unless a converter that a host program provides
refuses a word with an error of its own. -/
theorem culprit_of_parse {text : String} (h : p.parse text = .error e) :
    (p.Culprit (p.dialect.expand text).toList e ∨ p.Refuses (p.dialect.expand text).toList e) ∧
      (p.registry.RefusesValues → p.Culprit (p.dialect.expand text).toList e) := by
  have hrun := culprit_of_run (eq_error_of_map_eq_error h)
  refine ⟨hrun, fun hregistry => ?_⟩
  rcases hrun with hculprit | hrefuses
  · exact hculprit
  · obtain ⟨w, c, hw, hc, herror⟩ := hrefuses
    obtain ⟨before, after, hsplit, -⟩ := List.lookup_eq_some_iff.mp hc
    have hmem : ((Registry.split p.dialect.defaultConverter w).1, c) ∈ p.registry.entries := by
      rw [hsplit]
      simp
    obtain ⟨converter, value, rfl⟩ := hregistry _ hmem _ e herror
    exact ⟨w, c, hw, hc, herror⟩

/-- A sign in a group of the other one, and a `(` that is never closed behind one that is. -/
theorem culprit_of_parse_groups :
    (parse {} "a,(b&c|d)" = .error (.mixedConjunction 6) ∧
      Culprit {} "a,(b&c|d)".toList (.mixedConjunction 6)) ∧
    parse {} "a((b),(c" = .error (.unmatchedParenthesis 6) ∧
      Culprit {} "a((b),(c".toList (.unmatchedParenthesis 6) := by
  have hmixed : parse {} "a,(b&c|d)" = .error (.mixedConjunction 6) := by with_unfolding_all rfl
  have hopen : parse {} "a((b),(c" = .error (.unmatchedParenthesis 6) := by with_unfolding_all rfl
  have hexpand : ({} : Dialect).expand "a,(b&c|d)" = "a,(b&c|d)" ∧
      ({} : Dialect).expand "a((b),(c" = "a((b),(c" :=
    ⟨by with_unfolding_all rfl, by with_unfolding_all rfl⟩
  have hsign := (culprit_of_parse hmixed).2 Registry.refusesValues_builtin
  have hparenthesis := (culprit_of_parse hopen).2 Registry.refusesValues_builtin
  rw [hexpand.1] at hsign
  rw [hexpand.2] at hparenthesis
  exact ⟨⟨hmixed, hsign⟩, hopen, hparenthesis⟩

/-- A parser with a converter that hands its words on to the built-in ones. -/
def relaying : Parser where
  registry := Registry.builtin.register "via" (Registry.builtin.convert "auto")

/-- **A converter of a host program can blame a name that no word selects**: the only word of the
text selects `via`, and it is the body of the word that is handed on. -/
theorem not_culprit_of_relaying :
    relaying.parse "via:foo:bar" = .error (.unknownConverter "foo") ∧
      ¬ relaying.Culprit (relaying.dialect.expand "via:foo:bar").toList
        (.unknownConverter "foo") := by
  have hexpand : relaying.dialect.expand "via:foo:bar" = "via:foo:bar" := by with_unfolding_all rfl
  refine ⟨by with_unfolding_all rfl, ?_⟩
  rw [hexpand]
  rintro ⟨w, hw, hselects, -⟩
  obtain rfl := hw.eq_of_isWord (by decide)
  rcases hselects with ⟨-, body, hbody⟩ | ⟨hcolon, -⟩
  · have hfirst := congrArg (fun word => word.toList.head?) hbody
    simp at hfirst
  · exact hcolon (by decide)

end Parser

end ResourceQuery
