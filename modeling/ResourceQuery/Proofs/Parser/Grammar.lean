import ResourceQuery.Proofs.Parser.Reading
import ResourceQuery.Proofs.Token.Balance
import ResourceQuery.Proofs.Token.Cutting

/-!
# The grammar of query text

The parser accepts a text if and only if its expansion can be cut into tokens that follow a
grammar: balanced parentheses, one kind of sign in each group, no gap between commas unless gaps
are allowed, and words that can be converted.

The grammar is about whole texts, and the stack machine sees one token after the other.  So the
grammar is brought into the same form first: a condition on each token and on what is before it.
What the machine knows of the tokens before are the names of the open groups and the slot, and
each of them says something about the balanced back parts of those tokens.

## Main definitions

* `Parser.Grammatical`: the grammar
* `Parser.Follows`: a token may come after some others
* `Parser.State.After`: what the machine knows of the tokens it has read

## Main results

* `Parser.grammatical_iff`: the grammar, token by token
* `Parser.State.After.step`, `Parser.step_isOk_iff`: one token
* `Parser.Runs.after`, `Parser.runs_isOk_iff`: a run
* `Parser.parse_isOk_iff`: the texts that are accepted
-/

namespace ResourceQuery

namespace Token

/-- The name that a sign gives the group it stands in. -/
def groupName? : Token → Option String
  | ampersand => some andName
  | pipe => some orName
  | _ => none

/-- After the last comma there are at most signs. -/
def Gap (ts : List Token) : Prop :=
  ∃ us, comma :: us <:+ ts ∧ ∀ t ∈ us, t.groupName?.isSome

variable {ts : List Token} {t : Token}

theorem ne_of_groupName? {n : String} (h : t.groupName? = some n) :
    t ≠ opening ∧ t ≠ closing ∧ t ≠ comma ∧ t ≠ finish ∧ ¬ t.IsWord := by
  cases t <;> simp [groupName?, IsWord] at h ⊢

/-- A comma opens a gap, and signs do not fill it. -/
theorem gap_concat_iff : Gap (ts ++ [t]) ↔ t = comma ∨ (t.groupName?.isSome ∧ Gap ts) := by
  constructor
  · rintro ⟨us, hsuffix, hus⟩
    rcases List.suffix_concat_iff.mp hsuffix with h | ⟨vs, hvs, hback⟩
    · cases h
    · cases vs with
      | nil => exact .inl (List.cons.inj hvs).1.symm
      | cons v vs =>
        obtain ⟨rfl, rfl⟩ := List.cons.inj hvs
        exact .inr ⟨hus t (by simp), vs, hback, fun u hu => hus u (by simp [hu])⟩
  · rintro (rfl | ⟨ht, us, hsuffix, hus⟩)
    · exact ⟨[], List.suffix_append ts [comma], by simp⟩
    · refine ⟨us ++ [t], List.suffix_append_self_iff.mpr hsuffix, fun u hu => ?_⟩
      rcases List.mem_append.mp hu with hu | hu
      · exact hus u hu
      · rwa [List.mem_singleton.mp hu]

end Token

namespace Parser

open Token

variable {p : Parser} {ts : List Token} {t : Token}

/-- The word has a value. -/
def Converts (p : Parser) (w : String) : Prop :=
  ∃ v, p.registry.convert p.dialect.defaultConverter w = .ok v

/-- The grammar of tokens.  Signs stand directly in one group, or both at the root, if the tokens
between them are balanced; and directly in the group of a `(`, if those after it are. -/
structure Grammatical (p : Parser) (ts : List Token) : Prop where
  balanced : Balanced ts
  /-- The signs of a group are the same. -/
  alike : ∀ us x vs y ws, ts = us ++ x :: vs ++ y :: ws → Balanced vs →
    ∀ m n, x.groupName? = some m → y.groupName? = some n → m = n
  /-- They agree with the word before the group. -/
  named : ∀ us w vs x ws, ts = us ++ Token.word w :: Token.opening :: vs ++ x :: ws → Balanced vs →
    ∀ n, x.groupName? = some n → w = n
  /-- Between two commas there is something else than signs, unless gaps are allowed. -/
  gapless : p.dialect.emptyArguments = false →
    ∀ us vs ws, ts = us ++ Token.comma :: vs ++ Token.comma :: ws → ∃ t ∈ vs, t.groupName? = none
  /-- A word that is no name has a value. -/
  converts : ∀ us w vs, ts = us ++ Token.word w :: vs → vs.head? ≠ some .opening → p.Converts w

/-! ## Token by token -/

/-- A token may come after some others. -/
structure Follows (p : Parser) (ts : List Token) (t : Token) : Prop where
  closing : t = .closing → ts.count .closing < ts.count .opening
  alike : ∀ n, t.groupName? = some n → ∀ x m, Reaches [x] ts → x.groupName? = some m → m = n
  named : ∀ n, t.groupName? = some n → ∀ w, Reaches [.word w, .opening] ts → w = n
  gapless : p.dialect.emptyArguments = false → t = .comma → ¬ Gap ts
  converts : t ≠ .opening → ∀ w, [.word w] <:+ ts → p.Converts w

/-- The tokens may end here. -/
structure Ends (p : Parser) (ts : List Token) : Prop where
  closed : ts.count .closing = ts.count .opening
  converts : ∀ w, [.word w] <:+ ts → p.Converts w

/-- Every token may come after those before it. -/
def Proceeds (p : Parser) (ts : List Token) : Prop :=
  ∀ us t vs, ts = us ++ t :: vs → p.Follows us t

theorem proceeds_nil : p.Proceeds [] := by
  intro us t vs h
  simp at h

/-- Tokens can be read if those before the last can, and the last may follow them. -/
theorem proceeds_concat_iff : p.Proceeds (ts ++ [t]) ↔ p.Proceeds ts ∧ p.Follows ts t := by
  constructor
  · intro h
    exact ⟨fun us u vs heq => h us u (vs ++ [t]) (by simp [heq]), h ts t [] rfl⟩
  · rintro ⟨hts, ht⟩ us u vs heq
    rcases List.eq_nil_or_concat vs with rfl | ⟨vs, v, rfl⟩
    · obtain ⟨rfl, rfl⟩ := List.append_singleton_inj.mp heq
      exact ht
    · rw [List.concat_eq_append, ← List.cons_append, ← List.append_assoc] at heq
      obtain ⟨rfl, -⟩ := List.append_singleton_inj.mp heq
      exact hts us u vs rfl

/-- **The grammar, token by token.** -/
theorem grammatical_iff : p.Grammatical ts ↔ p.Proceeds ts ∧ p.Ends ts := by
  constructor
  · intro h
    constructor
    · rintro us t vs rfl
      refine ⟨?_, ?_, ?_, ?_, ?_⟩
      · rintro rfl
        have hnested := h.balanced.nested (us ++ [.closing]) ⟨vs, by simp⟩
        simp at hnested
        omega
      · rintro n hn x m ⟨ws, hws, as, rfl⟩ hm
        exact h.alike as x ws t vs (by simp) hws m n hm hn
      · rintro n hn w ⟨ws, hws, as, rfl⟩
        exact h.named as w ws t vs (by simp) hws n hn
      · rintro hempty rfl ⟨ws, ⟨as, rfl⟩, hws⟩
        obtain ⟨t, ht, hnone⟩ := h.gapless hempty as ws vs (by simp)
        simpa [hnone] using hws t ht
      · rintro ht w ⟨as, rfl⟩
        exact h.converts as w (t :: vs) (by simp) (by simpa using ht)
    · refine ⟨h.balanced.closed, ?_⟩
      rintro w ⟨as, rfl⟩
      exact h.converts as w [] rfl (by simp)
  · rintro ⟨hproceeds, hends⟩
    refine ⟨⟨?_, hends.closed⟩, ?_, ?_, ?_, ?_⟩
    · -- The balance of a front part is kept by each of its tokens.
      intro us hus
      induction us using List.reverseRecOn with
      | nil => simp
      | append_singleton us t ih =>
        have hle := ih ((List.prefix_append us [t]).trans hus)
        obtain ⟨vs, rfl⟩ := hus
        have hclosing := (hproceeds us t vs (by simp)).closing
        by_cases ht : t = .closing
        · have := hclosing ht
          simp [ht]
          omega
        · simp [ht]
          omega
    · rintro us x vs y ws rfl hvs m n hm hn
      exact (hproceeds (us ++ x :: vs) y ws (by simp)).alike n hn x m
        ⟨vs, hvs, List.suffix_append us _⟩ hm
    · rintro us w vs x ws rfl hvs n hn
      exact (hproceeds (us ++ .word w :: .opening :: vs) x ws (by simp)).named n hn w
        ⟨vs, hvs, List.suffix_append us _⟩
    · rintro hempty us vs ws rfl
      have hgap := (hproceeds (us ++ .comma :: vs) .comma ws (by simp)).gapless hempty rfl
      by_contra hsigns
      refine hgap ⟨vs, List.suffix_append us _, fun t ht => ?_⟩
      by_contra hnone
      exact hsigns ⟨t, ht, by simpa using hnone⟩
    · rintro us w vs rfl hhead
      cases vs with
      | nil => exact hends.converts w (List.suffix_append us _)
      | cons t vs =>
        exact (hproceeds (us ++ [.word w]) t vs (by simp)).converts (by simpa using hhead) w
          (List.suffix_append us _)

/-! ## What the machine knows -/

/-- The name of the group that the tokens leave open: that of the signs in it, or else that of the
word before it. -/
structure NameAfter (ts : List Token) (name : Option String) : Prop where
  sign : ∀ x n, Reaches [x] ts → x.groupName? = some n → name = some n
  word : ∀ w, Reaches [.word w, .opening] ts → name = some w
  origin : ∀ n, name = some n →
    (∃ x, Reaches [x] ts ∧ x.groupName? = some n) ∨ Reaches [.word n, .opening] ts

/-- The names of the groups that the tokens leave open, the innermost first. -/
inductive NamesAfter : List Token → List (Option String) → Prop
  | root {ts : List Token} {name : Option String} (hts : Balanced ts) (hname : NameAfter ts name) :
      NamesAfter ts [name]
  | inner {us vs : List Token} {name : Option String} {names : List (Option String)}
      (h : NamesAfter us names) (hvs : Balanced vs)
      (hname : NameAfter (us ++ .opening :: vs) name) :
      NamesAfter (us ++ .opening :: vs) (name :: names)

/-- What the tokens leave to be decided. -/
structure SlotAfter (ts : List Token) (slot : Slot) : Prop where
  word : ∀ w, slot = .word w ↔ [.word w] <:+ ts
  separated : slot = .separated ↔ Gap ts

/-- What the machine knows of the tokens it has read. -/
structure State.After (ts : List Token) (s : State) : Prop where
  names : NamesAfter ts ((s.frame :: s.outer).map Frame.name)
  slot : SlotAfter ts s.slot

/-- A token other than a parenthesis can be reached from itself on. -/
theorem reaches_sign_concat_iff (hopening : t ≠ .opening) (hclosing : t ≠ .closing) {x : Token} :
    Reaches [x] (ts ++ [t]) ↔ x = t ∨ Reaches [x] ts := by
  rw [reaches_concat_iff hopening hclosing, List.singleton_suffix_append_singleton_iff]

theorem reaches_name_concat_iff (hopening : t ≠ .opening) (hclosing : t ≠ .closing) {w : String} :
    Reaches [.word w, .opening] (ts ++ [t]) ↔ Reaches [.word w, .opening] ts := by
  rw [reaches_concat_iff hopening hclosing, or_iff_right]
  intro hsuffix
  have hlast := (List.suffix_cons (Token.word w) [.opening]).trans hsuffix
  exact hopening (List.singleton_suffix_append_singleton_iff.mp hlast).symm

namespace NameAfter

variable {name : Option String}

/-- A token that is neither a parenthesis nor a sign does not name the group. -/
theorem concat (h : NameAfter ts name) (hopening : t ≠ .opening) (hclosing : t ≠ .closing)
    (hsign : t.groupName? = none) : NameAfter (ts ++ [t]) name where
  sign x n hx hn := by
    rcases (reaches_sign_concat_iff hopening hclosing).mp hx with rfl | hx
    · simp [hsign] at hn
    · exact h.sign x n hx hn
  word w hw := h.word w ((reaches_name_concat_iff hopening hclosing).mp hw)
  origin n hn := by
    rcases h.origin n hn with ⟨x, hx, hxn⟩ | hw
    · exact .inl ⟨x, (reaches_sign_concat_iff hopening hclosing).mpr (.inr hx), hxn⟩
    · exact .inr ((reaches_name_concat_iff hopening hclosing).mpr hw)

/-- A sign that agrees with the name a group has is its name. -/
theorem concat_sign (h : NameAfter ts name) {n : String} (hsign : t.groupName? = some n)
    (hname : ∀ m, name = some m → m = n) : NameAfter (ts ++ [t]) (some n) := by
  obtain ⟨hopening, hclosing, -⟩ := ne_of_groupName? hsign
  refine ⟨fun x m hx hm => ?_, fun w hw => ?_, fun m hm => ?_⟩
  · rcases (reaches_sign_concat_iff hopening hclosing).mp hx with rfl | hx
    · rw [← hsign, hm]
    · rw [hname m (h.sign x m hx hm)]
  · rw [hname w (h.word w ((reaches_name_concat_iff hopening hclosing).mp hw))]
  · obtain rfl := Option.some.inj hm
    exact .inl ⟨t, (reaches_sign_concat_iff hopening hclosing).mpr (.inl rfl), hsign⟩

/-- A `(` opens a group that has the name of the word before it. -/
theorem concat_opening (hname : ∀ w, name = some w ↔ [.word w] <:+ ts) :
    NameAfter (ts ++ [.opening]) name where
  sign x n hx hn := by
    obtain rfl := List.singleton_suffix_append_singleton_iff.mp (reaches_opening_iff.mp hx)
    cases hn
  word w hw := by
    have hsuffix : [Token.word w] ++ [Token.opening] <:+ ts ++ [Token.opening] :=
      reaches_opening_iff.mp hw
    exact (hname w).mpr (List.suffix_append_self_iff.mp hsuffix)
  origin n hn := by
    have hsuffix : [Token.word n] ++ [Token.opening] <:+ ts ++ [Token.opening] :=
      List.suffix_append_self_iff.mpr ((hname n).mp hn)
    exact .inr (reaches_of_suffix hsuffix)

/-- A finished group has nothing to say about the one around it. -/
theorem append_group (h : NameAfter ts name) {vs : List Token} (hvs : Balanced vs) :
    NameAfter (ts ++ Token.opening :: (vs ++ [Token.closing])) name := by
  have hword : ∀ w : String, ¬ [Token.closing] <:+ [.word w, .opening] := by
    intro w hsuffix
    have hlast : [Token.closing] <:+ [Token.word w] ++ [Token.opening] := hsuffix
    cases List.singleton_suffix_append_singleton_iff.mp hlast
  have hsign : ∀ x n, x.groupName? = some n → ¬ [Token.closing] <:+ [x] := by
    intro x n hn hsuffix
    have hlast : [Token.closing] <:+ [] ++ [x] := hsuffix
    exact (ne_of_groupName? hn).2.1 (List.singleton_suffix_append_singleton_iff.mp hlast).symm
  refine ⟨fun x n hx hn => ?_, fun w hw => ?_, fun n hn => ?_⟩
  · exact h.sign x n ((reaches_group_iff hvs (hsign x n hn)).mp hx) hn
  · exact h.word w ((reaches_group_iff hvs (hword w)).mp hw)
  · rcases h.origin n hn with ⟨x, hx, hxn⟩ | hw
    · exact .inl ⟨x, (reaches_group_iff hvs (hsign x n hxn)).mpr hx, hxn⟩
    · exact .inr ((reaches_group_iff hvs (hword n)).mpr hw)

end NameAfter

namespace NamesAfter

variable {name : Option String} {names : List (Option String)}

theorem head (h : NamesAfter ts (name :: names)) : NameAfter ts name := by
  cases h with
  | root hts hname => exact hname
  | inner h hvs hname => exact hname

/-- Balanced tokens change at most the name of the innermost group. -/
theorem append (h : NamesAfter ts (name :: names)) {vs : List Token} (hvs : Balanced vs)
    {name' : Option String} (hname : NameAfter (ts ++ vs) name') :
    NamesAfter (ts ++ vs) (name' :: names) := by
  cases h with
  | root hts _ => exact .root (hts.append hvs) hname
  | inner h hus _ =>
    rw [List.append_assoc, List.cons_append] at hname ⊢
    exact .inner h (hus.append hvs) hname

/-- Behind a `)` the innermost group is the one around it. -/
theorem concat_closing {parent : Option String} (h : NamesAfter ts (name :: parent :: names)) :
    NamesAfter (ts ++ [.closing]) (parent :: names) := by
  cases h with
  | inner h hvs _ =>
    rw [List.append_assoc, List.cons_append]
    exact h.append hvs.group (h.head.append_group hvs)

/-- As many terms are open as there are names beyond that of the root. -/
theorem count_eq (h : NamesAfter ts names) :
    ts.count .opening + 1 = ts.count .closing + names.length := by
  induction h with
  | root hts _ => simp [hts.closed]
  | inner h hvs _ ih =>
    have := hvs.closed
    simp only [List.count_append, List.count_cons_self, List.length_cons]
    simp
    omega

end NamesAfter

theorem slotAfter_word (w : String) : SlotAfter (ts ++ [.word w]) (.word w) where
  word v := by rw [List.singleton_suffix_append_singleton_iff]; simp [eq_comm]
  separated := by rw [gap_concat_iff]; simp [groupName?]

theorem slotAfter_comma : SlotAfter (ts ++ [.comma]) .separated where
  word v := by rw [List.singleton_suffix_append_singleton_iff]; simp
  separated := by rw [gap_concat_iff]; simp

theorem slotAfter_parenthesis (ht : t = .opening ∨ t = .closing) :
    SlotAfter (ts ++ [t]) .vacant where
  word v := by rw [List.singleton_suffix_append_singleton_iff]; rcases ht with rfl | rfl <;> simp
  separated := by rw [gap_concat_iff]; rcases ht with rfl | rfl <;> simp [groupName?]

/-- A sign leaves a gap as it is. -/
theorem SlotAfter.sign {slot slot' : Slot} (h : SlotAfter ts slot) {n : String}
    (ht : t.groupName? = some n) (hword : ∀ w, slot' ≠ .word w)
    (hseparated : slot' = .separated ↔ slot = .separated) : SlotAfter (ts ++ [t]) slot' where
  word v := by
    have hne : .word v ≠ t := fun heq => (ne_of_groupName? ht).2.2.2.2 ⟨v, heq.symm⟩
    simpa [hword v] using hne
  separated := by
    have hcomma := (ne_of_groupName? ht).2.2.1
    simp [hseparated, h.separated, gap_concat_iff, ht, hcomma]

theorem State.after_start : State.start.After [] := by
  have hreaches : ∀ us, us ≠ [] → ¬ Reaches us [] := by
    rintro us hus ⟨vs, -, hsuffix⟩
    exact hus (List.append_eq_nil_iff.mp (List.suffix_nil.mp hsuffix)).1
  refine ⟨.root balanced_nil ⟨?_, ?_, ?_⟩, ?_, ?_⟩
  · exact fun x n hx => absurd hx (hreaches _ (by simp))
  · exact fun w hw => absurd hw (hreaches _ (by simp))
  · exact fun n hn => by cases hn
  · simp [State.start]
  · simp [State.start, Gap]

/-! ## One token -/

variable {s s' : State} {position : Nat}

theorem convert_isOk_iff {w : String} : (∃ n, p.convert w = .ok n) ↔ p.Converts w := by
  unfold convert Converts
  cases p.registry.convert p.dialect.defaultConverter w <;> simp [Except.map]

/-- The waiting word, if there is one, has a value. -/
def State.Converts (p : Parser) (s : State) : Prop := ∀ w, s.slot = .word w → p.Converts w

theorem flush_isOk_iff : (∃ s', p.flush s = .ok s') ↔ s.Converts p := by
  unfold flush State.Converts
  split
  · next w hw =>
    simp only [Slot.word.injEq, forall_eq', hw, ← convert_isOk_iff]
    cases p.convert w <;> simp [bind, Except.bind, pure, Except.pure]
  · next hslot => exact iff_of_true ⟨_, rfl⟩ fun w hw => (hslot w hw).elim

/-- Reading a waiting word adds at most an argument. -/
theorem exists_of_flush (h : p.flush s = .ok s') :
    ∃ args, s' = { s with frame := { s.frame with args := args }, slot := .vacant } := by
  unfold flush at h
  split at h
  · obtain ⟨n, -, h⟩ := exists_of_bind_eq_ok h
    cases h
    exact ⟨_, rfl⟩
  · cases h
    exact ⟨_, rfl⟩

/-- A term can be closed if one is open and the word that waits can be read. -/
theorem closeTerm_isOk_iff :
    (∃ s', p.closeTerm position s = .ok s') ↔ s.outer ≠ [] ∧ s.Converts p := by
  rw [← flush_isOk_iff]
  constructor
  · rintro ⟨s', h⟩
    obtain ⟨s₁, hflush, h⟩ := exists_of_bind_eq_ok h
    refine ⟨fun houter => ?_, s₁, hflush⟩
    rw [outer_of_flush hflush, houter] at h
    cases h
  · rintro ⟨houter, s₁, hflush⟩
    obtain ⟨parent, outer, hs⟩ := List.exists_cons_of_ne_nil houter
    rw [closeTerm, hflush]
    simp [bind, Except.bind, outer_of_flush hflush, hs, pure, Except.pure]

theorem exists_of_closeTerm (h : p.closeTerm position s = .ok s') :
    ∃ parent outer args captures, s.outer = parent :: outer ∧
      s' = ⟨outer, { parent with args := args }, .vacant, captures⟩ := by
  obtain ⟨s₁, hflush, h⟩ := exists_of_bind_eq_ok h
  obtain ⟨args, rfl⟩ := exists_of_flush hflush
  split at h
  · cases h
  · next parent outer houter =>
    cases h
    exact ⟨parent, outer, _, _, houter, rfl⟩

/-- A comma can be read unless it leaves an argument empty that must not be. -/
theorem separate_isOk_iff : (∃ s', p.separate position s = .ok s') ↔
    (s.slot = .separated → p.dialect.emptyArguments) ∧ s.Converts p := by
  unfold separate State.Converts
  split
  · next hslot => simp [hslot, pure, Except.pure]
  · next hslot => split_ifs with hempty <;> simp [hslot, hempty, pure, Except.pure]
  · next w hw =>
    simp only [Slot.word.injEq, forall_eq', hw, ← convert_isOk_iff]
    cases p.convert w <;> simp [bind, Except.bind, pure, Except.pure]

theorem exists_of_separate (h : p.separate position s = .ok s') :
    ∃ args, s' = { s with frame := { s.frame with args := args }, slot := .separated } := by
  unfold separate at h
  split at h
  · cases h
    exact ⟨_, rfl⟩
  · next hslot =>
    split_ifs at h
    cases h
    exact ⟨_, by rw [← hslot]; rfl⟩
  · obtain ⟨n, -, h⟩ := exists_of_bind_eq_ok h
    cases h
    exact ⟨_, rfl⟩

theorem not_any_name_iff {f : Frame} {name : String} :
    ¬ f.name.any (· != name) ↔ ∀ m, f.name = some m → m = name := by
  cases f.name <;> simp

/-- A sign can be read if the group has its name, or none. -/
theorem conjoin_isOk_iff {name : String} : (∃ s', p.conjoin name position s = .ok s') ↔
    (∀ m, s.frame.name = some m → m = name) ∧ s.Converts p := by
  rw [← not_any_name_iff]
  unfold conjoin
  split_ifs with hmixed
  · simp [hmixed]
  · dsimp only
    rw [and_iff_right hmixed]
    split
    · exact flush_isOk_iff
    · next hslot => exact iff_of_true ⟨_, rfl⟩ fun w hw => (hslot w hw).elim

theorem exists_of_conjoin {name : String} (h : p.conjoin name position s = .ok s') :
    (∀ m, s.frame.name = some m → m = name) ∧
    ∃ args slot, s' = { s with frame := { s.frame with name := some name, args := args },
                               slot := slot } ∧
      (∀ w, slot ≠ .word w) ∧ (slot = .separated ↔ s.slot = .separated) := by
  refine ⟨(conjoin_isOk_iff.mp ⟨s', h⟩).1, ?_⟩
  unfold conjoin at h
  split_ifs at h with hmixed
  dsimp only at h
  split at h
  · next w hw =>
    obtain ⟨args, rfl⟩ := exists_of_flush h
    exact ⟨args, .vacant, rfl, by simp, by simp [hw]⟩
  · next hslot =>
    cases h
    exact ⟨s.frame.args, s.slot, rfl, fun w hw => hslot w hw, Iff.rfl⟩

/-- A waiting word is the last token. -/
theorem State.After.converts_iff (hs : s.After ts) :
    s.Converts p ↔ ∀ w, [.word w] <:+ ts → p.Converts w := by
  simp only [State.Converts, hs.slot.word]

/-- What is known of the name of the innermost group, said of the tokens. -/
theorem State.After.name_iff (hs : s.After ts) {n : String} :
    (∀ m, s.frame.name = some m → m = n) ↔
      (∀ x m, Reaches [x] ts → x.groupName? = some m → m = n) ∧
        ∀ w, Reaches [.word w, .opening] ts → w = n := by
  have hname := hs.names.head
  constructor
  · intro h
    exact ⟨fun x m hx hm => h m (hname.sign x m hx hm), fun w hw => h w (hname.word w hw)⟩
  · rintro ⟨hsign, hword⟩ m hm
    rcases hname.origin m hm with ⟨x, hx, hxm⟩ | hw
    · exact hsign x m hx hxm
    · exact hword m hw

/-- A sign keeps the state in step with the tokens. -/
theorem State.After.conjoin (hs : s.After ts) {n : String} (ht : t.groupName? = some n)
    (h : p.conjoin n position s = .ok s') : s'.After (ts ++ [t]) := by
  obtain ⟨hname, args, slot, rfl, hword, hseparated⟩ := exists_of_conjoin h
  obtain ⟨hopening, hclosing, -⟩ := ne_of_groupName? ht
  exact ⟨hs.names.append (balanced_singleton hopening hclosing) (hs.names.head.concat_sign ht hname),
    hs.slot.sign ht hword hseparated⟩

/-- **One token: what the machine knows after it.** -/
theorem State.After.step (hs : s.After ts) (ht : t ≠ .finish)
    (h : p.step s ⟨t, position⟩ = .ok s') : s'.After (ts ++ [t]) := by
  cases t with
  | word w =>
    cases h
    refine ⟨hs.names.append (balanced_singleton (by simp) (by simp)) ?_, slotAfter_word w⟩
    exact hs.names.head.concat (by simp) (by simp) rfl
  | opening =>
    cases h
    refine ⟨.inner hs.names balanced_nil (.concat_opening fun w => ?_),
      slotAfter_parenthesis (.inl rfl)⟩
    rw [← hs.slot.word w]
    simp only [openTerm]
    split
    · next v hv => simp [hv]
    · next hslot => exact iff_of_false (by simp) (hslot w)
  | closing =>
    obtain ⟨parent, outer, args, captures, houter, rfl⟩ := exists_of_closeTerm h
    have hnames := hs.names
    rw [houter] at hnames
    exact ⟨hnames.concat_closing, slotAfter_parenthesis (.inr rfl)⟩
  | comma =>
    obtain ⟨args, rfl⟩ := exists_of_separate h
    refine ⟨hs.names.append (balanced_singleton (by simp) (by simp)) ?_, slotAfter_comma⟩
    exact hs.names.head.concat (by simp) (by simp) rfl
  | ampersand => exact hs.conjoin rfl h
  | pipe => exact hs.conjoin rfl h
  | finish => exact absurd rfl ht

/-- A term is open exactly if there are more `(` than `)`. -/
theorem State.After.outer_ne_nil_iff (hs : s.After ts) :
    s.outer ≠ [] ↔ ts.count .closing < ts.count .opening := by
  have hcount := hs.names.count_eq
  rw [← List.length_pos_iff]
  simp at hcount
  omega

/-- What may stand before a `)`. -/
theorem follows_closing_iff : p.Follows ts .closing ↔
    ts.count .closing < ts.count .opening ∧ ∀ w, [.word w] <:+ ts → p.Converts w := by
  constructor
  · intro h
    exact ⟨h.closing rfl, h.converts (by simp)⟩
  · rintro ⟨hcount, hwords⟩
    exact ⟨fun _ => hcount, by simp [groupName?], by simp [groupName?], by simp, fun _ => hwords⟩

theorem follows_comma_iff : p.Follows ts .comma ↔
    (Gap ts → p.dialect.emptyArguments) ∧ ∀ w, [.word w] <:+ ts → p.Converts w := by
  constructor
  · intro h
    refine ⟨fun hgap => ?_, h.converts (by simp)⟩
    by_contra hempty
    exact h.gapless (by simpa using hempty) rfl hgap
  · rintro ⟨hgap, hwords⟩
    refine ⟨by simp, by simp [groupName?], by simp [groupName?], fun hempty _ h => ?_,
      fun _ => hwords⟩
    simp [hgap h] at hempty

theorem follows_sign_iff {n : String} (ht : t.groupName? = some n) : p.Follows ts t ↔
    ((∀ x m, Reaches [x] ts → x.groupName? = some m → m = n) ∧
      ∀ w, Reaches [.word w, .opening] ts → w = n) ∧ ∀ w, [.word w] <:+ ts → p.Converts w := by
  obtain ⟨hopening, hclosing, hcomma, -⟩ := ne_of_groupName? ht
  constructor
  · intro h
    exact ⟨⟨h.alike n ht, h.named n ht⟩, h.converts hopening⟩
  · rintro ⟨⟨halike, hnamed⟩, hwords⟩
    refine ⟨fun h => absurd h hclosing, fun m hm => ?_, fun m hm => ?_, fun _ h => absurd h hcomma,
      fun _ => hwords⟩
    · obtain rfl := Option.some.inj (ht.symm.trans hm)
      exact halike
    · obtain rfl := Option.some.inj (ht.symm.trans hm)
      exact hnamed

theorem conjoin_isOk_iff_follows (hs : s.After ts) {n : String} (ht : t.groupName? = some n) :
    (∃ s', p.conjoin n position s = .ok s') ↔ p.Follows ts t := by
  rw [conjoin_isOk_iff, hs.name_iff, hs.converts_iff, follows_sign_iff ht]

/-- **One token: whether the machine takes it.** -/
theorem step_isOk_iff (hs : s.After ts) (ht : t ≠ .finish)
    (hapart : ∀ w, [.word w] <:+ ts → ¬ t.IsWord) :
    (∃ s', p.step s ⟨t, position⟩ = .ok s') ↔ p.Follows ts t := by
  cases t with
  | word w =>
    refine iff_of_true ⟨_, rfl⟩ ⟨by simp, by simp [groupName?], by simp [groupName?], by simp, ?_⟩
    exact fun _ v hv => absurd ⟨w, rfl⟩ (hapart v hv)
  | opening =>
    exact iff_of_true ⟨_, rfl⟩
      ⟨by simp, by simp [groupName?], by simp [groupName?], by simp, fun h => absurd rfl h⟩
  | closing =>
    rw [follows_closing_iff, ← hs.outer_ne_nil_iff, ← hs.converts_iff]
    exact closeTerm_isOk_iff
  | comma =>
    rw [follows_comma_iff, ← hs.slot.separated, ← hs.converts_iff]
    exact separate_isOk_iff
  | ampersand => exact conjoin_isOk_iff_follows hs rfl
  | pipe => exact conjoin_isOk_iff_follows hs rfl
  | finish => exact absurd rfl ht

/-! ## Runs -/

theorem runs_concat_iff : p.Runs position s (ts ++ [t]) s' ↔
    ∃ s₁, p.Runs position s ts s₁ ∧
      p.step s₁ ⟨t, position + (spelling ts).length⟩ = .ok s' := by
  rw [runs_append_iff]
  refine exists_congr fun s₁ => and_congr_right fun _ => ?_
  rw [runs_cons_iff]
  constructor
  · rintro ⟨s₂, hstep, hnil⟩
    cases hnil
    exact hstep
  · intro hstep
    exact ⟨s', hstep, runs_nil⟩

/-- A run: what the machine knows after it. -/
theorem Runs.after (hfinish : .finish ∉ ts) (h : p.Runs 0 .start ts s) : s.After ts := by
  induction ts using List.reverseRecOn generalizing s with
  | nil =>
    cases h
    exact State.after_start
  | append_singleton ts t ih =>
    rw [List.mem_append, not_or, List.mem_singleton] at hfinish
    obtain ⟨s₁, hs₁, h⟩ := runs_concat_iff.mp h
    exact (ih hfinish.1 hs₁).step (Ne.symm hfinish.2) h

/-- **A run: whether the machine takes all tokens.** -/
theorem runs_isOk_iff (hfinish : .finish ∉ ts) (hapart : ts.IsChain Apart) :
    (∃ s, p.Runs 0 .start ts s) ↔ p.Proceeds ts := by
  induction ts using List.reverseRecOn with
  | nil => exact iff_of_true ⟨_, runs_nil⟩ proceeds_nil
  | append_singleton ts t ih =>
    rw [List.mem_append, not_or, List.mem_singleton] at hfinish
    have hword : ∀ w, [.word w] <:+ ts → ¬ t.IsWord := fun w => not_isWord_of_apart hapart
    rw [proceeds_concat_iff, ← ih hfinish.1 hapart.left_of_append]
    constructor
    · rintro ⟨s', h⟩
      obtain ⟨s, hs, hstep⟩ := runs_concat_iff.mp h
      exact ⟨⟨s, hs⟩, (step_isOk_iff (hs.after hfinish.1) (Ne.symm hfinish.2) hword).mp ⟨s', hstep⟩⟩
    · rintro ⟨⟨s, hs⟩, hfollows⟩
      obtain ⟨s', hstep⟩ :=
        (step_isOk_iff (hs.after hfinish.1) (Ne.symm hfinish.2) hword).mpr hfollows
      exact ⟨s', runs_concat_iff.mpr ⟨s, hs, hstep⟩⟩

/-- A text may end where all terms are closed and the last word can be read. -/
theorem ends_iff (hs : s.After ts) :
    p.Ends ts ↔ s.outer = [] ∧ ∃ s', p.flush s = .ok s' := by
  have hcount := hs.names.count_eq
  have hclosed : ts.count .closing = ts.count .opening ↔ s.outer = [] := by
    rw [← List.length_eq_zero_iff]
    simp at hcount
    omega
  rw [flush_isOk_iff, hs.converts_iff, ← hclosed]
  exact ⟨fun h => ⟨h.closed, h.converts⟩, fun h => ⟨h.1, h.2⟩⟩

/-- A text is accepted by a run over the cut of the expanded text that ends at the bottom of the
stack. -/
theorem run_eq_ok_iff_runs {text : String} {t : Term} {clauses : List Clause} :
    p.run text = .ok (t, clauses) ↔ ∃ ts s s', Cuts ts (p.dialect.expand text).toList ∧
      p.Runs 0 .start ts s ∧ s.outer = [] ∧ p.flush s = .ok s' ∧
      rootTerm s'.frame.name s'.frame.args.toList = t ∧
      s'.captures.map (·.clause) = clauses := by
  rw [run_eq_ok_iff]
  constructor
  · rintro ⟨s, s', hrun, hforeign, hend⟩
    rcases exists_cuts_or 0 (p.dialect.expand text).toList with ⟨ts, hcuts⟩ | ⟨c, -, hne, -⟩
    · rw [Token.scan, hcuts.scanFrom 0] at hrun
      exact ⟨ts, s, s', hcuts, hrun, hend⟩
    · exact absurd hforeign hne
  · rintro ⟨ts, s, s', hcuts, hruns, hend⟩
    rw [Token.scan, hcuts.scanFrom 0]
    exact ⟨s, s', hruns, rfl, hend⟩

/-- **A text is parsed** if it can be cut and the machine runs over its tokens to the bottom of the
stack. -/
theorem parse_eq_ok_iff_runs {text : String} {t : Term} :
    p.parse text = .ok t ↔ ∃ ts s s', Cuts ts (p.dialect.expand text).toList ∧
      p.Runs 0 .start ts s ∧ s.outer = [] ∧ p.flush s = .ok s' ∧
      rootTerm s'.frame.name s'.frame.args.toList = t := by
  rw [parse_eq_ok_iff]
  constructor
  · rintro ⟨clauses, hrun⟩
    obtain ⟨ts, s, s', hcuts, hruns, houter, hflush, hroot, -⟩ := run_eq_ok_iff_runs.mp hrun
    exact ⟨ts, s, s', hcuts, hruns, houter, hflush, hroot⟩
  · rintro ⟨ts, s, s', hcuts, hruns, houter, hflush, hroot⟩
    exact ⟨_, run_eq_ok_iff_runs.mpr ⟨ts, s, s', hcuts, hruns, houter, hflush, hroot, rfl⟩⟩

/-- **The parser accepts exactly the grammatical texts.**  A text is accepted if and only if its
expansion has no other characters than those of words and punctuation, and is cut into tokens that
follow the grammar. -/
theorem parse_isOk_iff (p : Parser) (text : String) :
    (∃ t, p.parse text = .ok t) ↔
      (∀ c ∈ (p.dialect.expand text).toList, Text.isWordChar c ∨ c ∈ punctuation) ∧
      ∃ ts, Cuts ts (p.dialect.expand text).toList ∧ p.Grammatical ts := by
  constructor
  · rintro ⟨t, h⟩
    obtain ⟨ts, s, s', hcuts, hruns, houter, hflush, -⟩ := parse_eq_ok_iff_runs.mp h
    refine ⟨exists_cuts_iff.mp ⟨ts, hcuts⟩, ts, hcuts, grammatical_iff.mpr ⟨?_, ?_⟩⟩
    · exact (runs_isOk_iff hcuts.open_ended hcuts.apart).mp ⟨s, hruns⟩
    · exact (ends_iff (hruns.after hcuts.open_ended)).mpr ⟨houter, s', hflush⟩
  · rintro ⟨-, ts, hcuts, hgrammatical⟩
    obtain ⟨hproceeds, hends⟩ := grammatical_iff.mp hgrammatical
    obtain ⟨s, hruns⟩ := (runs_isOk_iff hcuts.open_ended hcuts.apart).mpr hproceeds
    obtain ⟨houter, s', hflush⟩ := (ends_iff (hruns.after hcuts.open_ended)).mp hends
    exact ⟨_, parse_eq_ok_iff_runs.mpr ⟨ts, s, s', hcuts, hruns, houter, hflush, rfl⟩⟩

end Parser

end ResourceQuery
