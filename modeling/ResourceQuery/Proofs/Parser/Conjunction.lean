import ResourceQuery.Proofs.CanonicalText.Legible
import ResourceQuery.Proofs.Parser.Grammar
import ResourceQuery.Proofs.Shorthand.Nesting

/-!
# Spellings of a conjunction

A conjunction at the root is written with `&` between its members, with commas, or as a term
`and`.  The machine takes three ways: the first `&` names the root, a root without a name is a
conjunction, and a single `and` at the root takes its place.

Members are any texts with balanced parentheses, and may be read as several arguments, as `a(b)c`
is.  So there is no tree to be found for each of them alone.  Instead two runs are followed side by
side, in terms that differ in their names and in what is around them: inside of the parentheses
that a member opens they do the same, and outside of them a member only adds arguments.

## Main definitions

* `Parser.Abreast`: two runs over the same tokens, side by side
* `Parser.JoinsMembers`: a sign that can be between the members of a conjunction
* `Parser.Conjoins`: texts that are read as the members of a conjunction

## Main results

* `Parser.Abreast.runs`: two runs stay side by side over nested tokens
* `Parser.runs_members`: members are read alike with all signs and in all terms
* `Parser.conjunction_spellings`: the three spellings of a conjunction at the root
-/

namespace ResourceQuery

namespace Parser

open Token Text

variable {p : Parser} {i i' k n : Nat} {s s' s₁ s₂ : State} {ts us : List Token} {t : Token}

/-! ## Two runs side by side -/

/-- What tokens are read in: the name of the innermost term, and the terms around it. -/
structure Bottom where
  name : Option String
  outer : List Frame

/-- What is below the next token. -/
def State.bottom (s : State) : Bottom := ⟨s.frame.name, s.outer⟩

/-- Two stacks that are alike above their bottoms, where the innermost terms have the same
arguments. -/
inductive Alongside (b b' : Bottom) (args : Array Node) : Nat → List Frame → List Frame → Prop
  | bottom (j j' : Nat) :
      Alongside b b' args 0 (⟨b.name, args, j⟩ :: b.outer) (⟨b'.name, args, j'⟩ :: b'.outer)
  | nested {n : Nat} {fs fs' : List Frame} (name : Option String) (members : Array Node)
      (j j' : Nat) (h : Alongside b b' args n fs fs') :
      Alongside b b' args (n + 1) (⟨name, members, j⟩ :: fs) (⟨name, members, j'⟩ :: fs')

variable {b b' : Bottom} {args : Array Node} {f f' : Frame} {fs fs' : List Frame}

/-- An argument for the innermost terms. -/
theorem Alongside.push (h : Alongside b b' args n (f :: fs) (f' :: fs')) (m : Node) :
    ∃ args', Alongside b b' args' n (f.push m :: fs) (f'.push m :: fs') ∧
      args.size ≤ args'.size ∧ (n = 0 → args.size < args'.size) := by
  cases h with
  | bottom j j' => exact ⟨args.push m, .bottom j j', by simp, by simp⟩
  | nested name members j j' h => exact ⟨args, .nested name (members.push m) j j' h, by simp⟩

/-- Two runs over the same tokens, inside of `n` terms that these have opened.  If there is none,
then something was read since there were `k` arguments: it waits, or it is the last argument. -/
structure Abreast (b b' : Bottom) (k n : Nat) (s s' : State) : Prop where
  alongside : ∃ args, Alongside b b' args n (s.frame :: s.outer) (s'.frame :: s'.outer) ∧
    k ≤ args.size ∧ (n = 0 → s.slot = .vacant → k < args.size)
  slots : s.slot = s'.slot
  read : n = 0 → s.slot ≠ .separated

section Locality

variable {outer : List Frame} {name : Option String} {j : Nat} {slot : Slot}
  {captures : List Capture}

/-- A waiting word is read without looking at anything but the slot.  Only the conversion can fail,
and it sees nothing but the word. -/
theorem flush_local (h : p.flush ⟨outer, ⟨name, args, j⟩, slot, captures⟩ = .ok s₁) : ∃ args',
    s₁ = ⟨outer, ⟨name, args', j⟩, .vacant, captures⟩ ∧
    (∀ outer' name' j' captures', p.flush ⟨outer', ⟨name', args, j'⟩, slot, captures'⟩ =
      .ok ⟨outer', ⟨name', args', j'⟩, .vacant, captures'⟩) ∧
    args.size ≤ args'.size ∧ ∀ w, slot = .word w → args.size < args'.size := by
  cases slot with
  | word w =>
    obtain ⟨m, hm, h⟩ := exists_of_bind_eq_ok h
    cases h
    refine ⟨args.push m, rfl, fun outer' name' j' captures' => ?_, by simp, by simp⟩
    simp only [flush, hm]
    rfl
  | vacant | separated =>
    cases h
    exact ⟨args, rfl, fun _ _ _ _ => rfl, le_refl _, by simp⟩

/-- A comma is read without looking at anything but the slot. -/
theorem separate_local (h : p.separate i ⟨outer, ⟨name, args, j⟩, slot, captures⟩ = .ok s₁) :
    ∃ args', s₁ = ⟨outer, ⟨name, args', j⟩, .separated, captures⟩ ∧
    ∀ i' outer' name' j' captures', p.separate i' ⟨outer', ⟨name', args, j'⟩, slot, captures'⟩ =
      .ok ⟨outer', ⟨name', args', j'⟩, .separated, captures'⟩ := by
  cases slot with
  | word w =>
    obtain ⟨m, hm, h⟩ := exists_of_bind_eq_ok h
    cases h
    refine ⟨args.push m, rfl, fun i' outer' name' j' captures' => ?_⟩
    simp only [separate, hm]
    rfl
  | vacant =>
    cases h
    exact ⟨args, rfl, fun _ _ _ _ _ => rfl⟩
  | separated =>
    simp only [separate] at h ⊢
    split_ifs at h with hempty
    cases h
    exact ⟨_, rfl, fun _ _ _ _ _ => if_pos hempty⟩

/-- A sign of a group is read without looking at anything but the slot and the name. -/
theorem conjoin_local {group : String}
    (h : p.conjoin group i ⟨outer, ⟨name, args, j⟩, slot, captures⟩ = .ok s₁) :
    ∃ args' slot', s₁ = ⟨outer, ⟨some group, args', j⟩, slot', captures⟩ ∧
    ∀ i' outer' j' captures', p.conjoin group i' ⟨outer', ⟨name, args, j'⟩, slot, captures'⟩ =
      .ok ⟨outer', ⟨some group, args', j'⟩, slot', captures'⟩ := by
  unfold conjoin at h ⊢
  dsimp only at h ⊢
  split_ifs at h ⊢ with hmixed
  cases slot with
  | word w =>
    obtain ⟨args', rfl, hflush, -⟩ := flush_local h
    exact ⟨args', .vacant, rfl, fun _ _ _ _ => hflush _ _ _ _⟩
  | vacant | separated =>
    cases h
    exact ⟨args, _, rfl, fun _ _ _ _ => rfl⟩

end Locality

namespace Abreast

theorem word (h : Abreast b b' k n s s') (w : String) :
    Abreast b b' k n { s with slot := .word w } { s' with slot := .word w } := by
  obtain ⟨args, hstacks, hsize, -⟩ := h.alongside
  exact ⟨⟨args, hstacks, hsize, by simp⟩, rfl, by simp⟩

/-- A term is opened in both runs. -/
theorem openTerm (h : Abreast b b' k n s s') (i i' : Nat) :
    Abreast b b' k (n + 1) (p.openTerm i s) (p.openTerm i' s') := by
  obtain ⟨args, hstacks, hsize, -⟩ := h.alongside
  refine ⟨⟨args, ?_, hsize, by simp⟩, rfl, by simp⟩
  unfold Parser.openTerm
  rw [h.slots]
  exact .nested _ _ _ _ hstacks

/-- A finished term is an argument of the one around it. -/
theorem closeTerm (h : Abreast b b' k (n + 1) s s') (hclose : p.closeTerm i s = .ok s₁) (i' : Nat) :
    ∃ s₁', p.closeTerm i' s' = .ok s₁' ∧ Abreast b b' k n s₁ s₁' := by
  obtain ⟨outer, frame, slot, captures⟩ := s
  obtain ⟨outer', frame', slot', captures'⟩ := s'
  obtain ⟨⟨args, hstacks, hsize, -⟩, rfl, -⟩ := h
  cases hstacks with
  | @nested n fs fs' name members j j' hstacks =>
    obtain ⟨s₂, hflush, hclose⟩ := exists_of_bind_eq_ok hclose
    obtain ⟨members', rfl, hlocal, -⟩ := flush_local hflush
    obtain ⟨f, fs, rfl⟩ : ∃ f fs, outer = f :: fs := by
      cases hstacks <;> exact ⟨_, _, rfl⟩
    obtain ⟨f', fs', rfl⟩ : ∃ f fs, outer' = f :: fs := by
      cases hstacks <;> exact ⟨_, _, rfl⟩
    cases hclose
    obtain ⟨args', hpushed, hle, hlt⟩ := hstacks.push (Frame.toNode ⟨name, members', j⟩)
    have hclose' : p.closeTerm i' ⟨f' :: fs', ⟨name, members, j'⟩, slot, captures'⟩ =
        .ok ⟨fs', f'.push (Frame.toNode ⟨name, members', j'⟩), .vacant,
          settle j' members'.toList captures'⟩ := by
      rw [Parser.closeTerm, hlocal]
      rfl
    refine ⟨_, hclose', ⟨args', hpushed, by omega, fun hn _ => ?_⟩, rfl, by simp⟩
    exact lt_of_le_of_lt hsize (hlt hn)

/-- A comma or a sign.  Inside of a term that was opened both runs have the same name, so a sign
fits both. -/
theorem sign (h : Abreast b b' k (n + 1) s s') (ht : t = .comma ∨ t.groupName?.isSome)
    (hstep : p.step s ⟨t, i⟩ = .ok s₁) (i' : Nat) :
    ∃ s₁', p.step s' ⟨t, i'⟩ = .ok s₁' ∧ Abreast b b' k (n + 1) s₁ s₁' := by
  obtain ⟨outer, frame, slot, captures⟩ := s
  obtain ⟨outer', frame', slot', captures'⟩ := s'
  obtain ⟨⟨args, hstacks, hsize, -⟩, rfl, -⟩ := h
  cases hstacks with
  | @nested n fs fs' name members j j' hstacks =>
    have hconjoin : ∀ {group}, p.conjoin group i ⟨outer, ⟨name, members, j⟩, slot, captures⟩ =
        .ok s₁ → ∃ s₁', p.conjoin group i' ⟨outer', ⟨name, members, j'⟩, slot, captures'⟩ =
          .ok s₁' ∧ Abreast b b' k (n + 1) s₁ s₁' := by
      intro group hconjoin
      obtain ⟨members', slot', rfl, hlocal⟩ := conjoin_local hconjoin
      exact ⟨_, hlocal _ _ _ _, ⟨args, .nested _ _ _ _ hstacks, hsize, by simp⟩, rfl, by simp⟩
    cases t with
    | comma =>
      obtain ⟨members', rfl, hlocal⟩ := separate_local hstep
      exact ⟨_, hlocal _ _ _ _ _, ⟨args, .nested _ _ _ _ hstacks, hsize, by simp⟩, rfl, by simp⟩
    | ampersand => exact hconjoin hstep
    | pipe => exact hconjoin hstep
    | _ => simp [groupName?] at ht

/-- **Two runs over nested tokens stay side by side.**  The terms that are open are the depth at
which the rest is nested. -/
theorem runs (h : Abreast b b' k n s s') (hwords : ∀ w, .word w ∈ ts → isWord w)
    (hfinish : .finish ∉ ts) (hnests : nests n (spelling ts)) (hruns : p.Runs i s ts s₁)
    (i' : Nat) :
    ∃ s₁', p.Runs i' s' ts s₁' ∧ Abreast b b' k 0 s₁ s₁' := by
  induction ts generalizing n s s' i i' with
  | nil =>
    obtain rfl : n = 0 := nests_nil.mp hnests
    cases hruns
    exact ⟨s', runs_nil, h⟩
  | cons t ts ih =>
    obtain ⟨hword, hwords⟩ : (∀ w, t = .word w → isWord w) ∧ ∀ w, .word w ∈ ts → isWord w :=
      ⟨fun w hw => hwords w (by simp [hw]), fun w hw => hwords w (List.mem_cons_of_mem t hw)⟩
    rw [List.mem_cons, not_or] at hfinish
    obtain ⟨s₂, hstep, hruns⟩ := runs_cons_iff.mp hruns
    rw [spelling_cons] at hnests
    have hnext : ∀ {m s₂'}, p.step s' ⟨t, i'⟩ = .ok s₂' → Abreast b b' k m s₂ s₂' →
        nests m (spelling ts) → ∃ s₁', p.Runs i' s' (t :: ts) s₁' ∧ Abreast b b' k 0 s₁ s₁' := by
      intro m s₂' hstep' habreast hrest
      obtain ⟨s₁', hruns', hlast⟩ := ih habreast hwords hfinish.2 hrest hruns (i' + t.chars.length)
      exact ⟨s₁', .cons hstep' hruns', hlast⟩
    have hsign : ∀ {c}, c ∈ [',', '&', '|'] → t.chars = [c] →
        t = .comma ∨ t.groupName?.isSome →
        ∃ s₁', p.Runs i' s' (t :: ts) s₁' ∧ Abreast b b' k 0 s₁ s₁' := by
      intro c hc hchars ht
      rw [hchars, List.singleton_append, nests_separator hc] at hnests
      obtain ⟨m, rfl⟩ := Nat.exists_eq_succ_of_ne_zero hnests.1
      obtain ⟨s₂', hstep', habreast⟩ := h.sign ht hstep i'
      exact hnext hstep' habreast hnests.2
    cases t with
    | word w =>
      cases hstep
      exact hnext rfl (h.word w) ((nests_word_iff (hword w rfl)).mp hnests)
    | opening =>
      cases hstep
      exact hnext rfl (h.openTerm i i') (by simpa [Token.chars] using hnests)
    | closing =>
      obtain ⟨m, rfl, hrest⟩ := nests_closing.mp hnests
      obtain ⟨s₂', hstep', habreast⟩ := h.closeTerm hstep i'
      exact hnext hstep' habreast hrest
    | comma => exact hsign (c := ',') (by simp) rfl (.inl rfl)
    | ampersand => exact hsign (c := '&') (by simp) rfl (.inr rfl)
    | pipe => exact hsign (c := '|') (by simp) rfl (.inr rfl)
    | finish => exact absurd rfl hfinish.1

end Abreast

/-! ## Members of a conjunction -/

/-- The cut of a member: tokens of a nested text that is not empty. -/
def IsMember (ts : List Token) : Prop := ∃ cs, Cuts ts cs ∧ cs ≠ [] ∧ nests 0 cs

/-- A member is read alike wherever nothing waits. -/
theorem runs_member (hts : IsMember ts) (hargs : s.frame.args = s'.frame.args)
    (hfree : s.slot.IsFree) (hfree' : s'.slot.IsFree) (hruns : p.Runs i s ts s₁) (i' : Nat) :
    ∃ s₁', p.Runs i' s' ts s₁' ∧ Abreast s.bottom s'.bottom s.frame.args.size 0 s₁ s₁' := by
  obtain ⟨cs, hcuts, hne, hnests⟩ := hts
  have hbottom : Alongside s.bottom s'.bottom s.frame.args 0 (s.frame :: s.outer)
      (s'.frame :: s'.outer) := by
    obtain ⟨outer, ⟨name, args, j⟩, slot, captures⟩ := s
    obtain ⟨outer', ⟨name', args', j'⟩, slot', captures'⟩ := s'
    obtain rfl : args = args' := hargs
    exact .bottom j j'
  cases ts with
  | nil => exact absurd hcuts.spelling.symm hne
  | cons t ts =>
    obtain ⟨s₂, hstep, hruns⟩ := runs_cons_iff.mp hruns
    rw [← hcuts.spelling, spelling_cons] at hnests
    have hwords : ∀ w, .word w ∈ ts → isWord w := fun w hw =>
      hcuts.words w (List.mem_cons_of_mem t hw)
    have hfinish : .finish ∉ ts := fun hmem => hcuts.open_ended (List.mem_cons_of_mem t hmem)
    have hnext : ∀ {m s₂'}, p.step s' ⟨t, i'⟩ = .ok s₂' →
        Abreast s.bottom s'.bottom s.frame.args.size m s₂ s₂' → nests m (spelling ts) →
        ∃ s₁', p.Runs i' s' (t :: ts) s₁' ∧
          Abreast s.bottom s'.bottom s.frame.args.size 0 s₁ s₁' := by
      intro m s₂' hstep' habreast hrest
      obtain ⟨s₁', hruns', hlast⟩ := habreast.runs hwords hfinish hrest hruns (i' + t.chars.length)
      exact ⟨s₁', .cons hstep' hruns', hlast⟩
    -- Nested text starts with a word or a parenthesis, and neither looks at a slot that is free.
    cases t with
    | word w =>
      cases hstep
      refine hnext rfl ⟨⟨_, hbottom, le_refl _, by simp⟩, rfl, by simp⟩ ?_
      exact (nests_word_iff (hcuts.words w List.mem_cons_self)).mp hnests
    | opening =>
      cases hstep
      refine hnext (m := 1) rfl ⟨⟨_, ?_, le_refl _, by simp⟩, rfl, by simp⟩
        (by simpa [chars] using hnests)
      rw [frame_openTerm hfree, frame_openTerm hfree']
      exact .nested none #[] i i' hbottom
    | closing => simp [chars] at hnests
    | comma => exact absurd rfl ((nests_separator (c := ',') (by simp)).mp hnests).1
    | ampersand => exact absurd rfl ((nests_separator (c := '&') (by simp)).mp hnests).1
    | pipe => exact absurd rfl ((nests_separator (c := '|') (by simp)).mp hnests).1
    | finish => exact absurd List.mem_cons_self hcuts.open_ended

/-- The term under construction can be a conjunction, and nothing waits. -/
structure State.Ready (s : State) : Prop where
  free : s.slot.IsFree
  name : s.frame.name.all (· == andName)

/-- A state in which the arguments of a conjunction are complete. -/
structure Filled (s : State) (args : Array Node) (s' : State) : Prop where
  outer : s'.outer = s.outer
  args : s'.frame.args = args
  name : s'.frame.name.all (· == andName)
  /-- A name that is there stays. -/
  named : s.frame.name = some andName → s'.frame.name = some andName

/-- A sign between the members of a conjunction: what was read becomes an argument. -/
def JoinsMembers (p : Parser) (sign : Token) : Prop :=
  ∀ {s : State}, s.slot ≠ .separated → s.frame.name.all (· == andName) → ∃ name slot,
    name.all (· == andName) ∧ (s.frame.name = some andName → name = some andName) ∧ slot.IsFree ∧
    ∀ i, p.step s ⟨sign, i⟩ = (p.flush s).map fun s₁ =>
      { s₁ with frame := { s₁.frame with name := name }, slot := slot }

theorem joinsMembers_comma : p.JoinsMembers .comma := by
  intro s hslot hname
  refine ⟨s.frame.name, .separated, hname, id, Slot.isFree_separated, fun i => ?_⟩
  obtain ⟨outer, ⟨name, args, j⟩, slot, captures⟩ := s
  cases slot with
  | word w =>
    change (p.convert w >>= _) = Except.map _ (p.convert w >>= _)
    cases p.convert w <;> rfl
  | vacant => rfl
  | separated => exact absurd rfl hslot

theorem joinsMembers_ampersand : p.JoinsMembers .ampersand := by
  intro s hslot hname
  refine ⟨some andName, .vacant, by simp, fun _ => rfl, Slot.isFree_vacant, fun i => ?_⟩
  obtain ⟨outer, ⟨name, args, j⟩, slot, captures⟩ := s
  have hmixed : ¬ name.any (· != andName) := by
    cases name <;> simp_all
  change p.conjoin andName i _ = _
  rw [conjoin, if_neg hmixed]
  cases slot with
  | word w =>
    change (p.convert w >>= _) = Except.map _ (p.convert w >>= _)
    cases p.convert w <;> rfl
  | vacant => rfl
  | separated => exact absurd rfl hslot

theorem Abreast.names (h : Abreast b b' k 0 s s') :
    s.frame.name = b.name ∧ s'.frame.name = b'.name := by
  obtain ⟨outer, frame, slot, captures⟩ := s
  obtain ⟨outer', frame', slot', captures'⟩ := s'
  obtain ⟨args, hstacks, -⟩ := h.alongside
  cases hstacks with
  | bottom j j' => exact ⟨rfl, rfl⟩

/-- What was read becomes an argument on both sides, and at least one argument is new. -/
theorem Abreast.filled (hs : s.Ready) (hs' : s'.Ready) {r r' r₁ : State}
    (h : Abreast s.bottom s'.bottom k 0 r r') (hflush : p.flush r = .ok r₁) :
    ∃ r₁' args, p.flush r' = .ok r₁' ∧ k < args.size ∧ Filled s args r₁ ∧ Filled s' args r₁' := by
  obtain ⟨outer, frame, slot, captures⟩ := r
  obtain ⟨outer', frame', slot', captures'⟩ := r'
  obtain ⟨⟨args, hstacks, hsize, hvacant⟩, rfl, hread⟩ := h
  cases hstacks with
  | bottom j j' =>
    obtain ⟨args', rfl, hlocal, hle, hlt⟩ := flush_local hflush
    refine ⟨_, args', hlocal _ _ _ _, ?_, ⟨rfl, rfl, hs.name, id⟩, rfl, rfl, hs'.name, id⟩
    cases slot with
    | word w => exact lt_of_le_of_lt hsize (hlt w rfl)
    | vacant => exact lt_of_lt_of_le (hvacant rfl rfl) hle
    | separated => exact absurd rfl (hread rfl)

/-- A sign between members leaves both sides ready for the next one. -/
theorem Abreast.join {sign sign' : Token} (hsign : p.JoinsMembers sign)
    (hsign' : p.JoinsMembers sign') (hs : s.Ready) (hs' : s'.Ready) {r r' r₂ : State}
    (h : Abreast s.bottom s'.bottom k 0 r r') (hstep : p.step r ⟨sign, i⟩ = .ok r₂) (i' : Nat) :
    ∃ r₂' args, p.step r' ⟨sign', i'⟩ = .ok r₂' ∧ k < args.size ∧
      (r₂.Ready ∧ Filled s args r₂) ∧ r₂'.Ready ∧ Filled s' args r₂' := by
  obtain ⟨hname, hname'⟩ := h.names
  have hread := h.read rfl
  obtain ⟨name, slot, hall, hkept, hfree, hjoin⟩ := hsign hread (by rw [hname]; exact hs.name)
  obtain ⟨name', slot', hall', hkept', hfree', hjoin'⟩ :=
    hsign' (h.slots ▸ hread) (by rw [hname']; exact hs'.name)
  rw [hjoin] at hstep
  obtain ⟨r₁, hflush, rfl⟩ := exists_of_map_eq_ok hstep
  obtain ⟨r₁', args, hflush', hsize, hfilled, hfilled'⟩ := h.filled hs hs' hflush
  refine ⟨{ r₁' with frame := { r₁'.frame with name := name' }, slot := slot' }, args, ?_, hsize,
    ⟨⟨hfree, hall⟩, ?_⟩, ⟨hfree', hall'⟩, ?_⟩
  · rw [hjoin', hflush']
    rfl
  · exact ⟨hfilled.outer, hfilled.args, hall, fun h => hkept (hname.trans h)⟩
  · exact ⟨hfilled'.outer, hfilled'.args, hall', fun h => hkept' (hname'.trans h)⟩

theorem Filled.trans {args' : Array Node} (h : Filled s args s₁) (h' : Filled s₁ args' s₂) :
    Filled s args' s₂ :=
  ⟨h'.outer.trans h.outer, h'.args, h'.name, h'.named ∘ h.named⟩

/-- **Members are read alike**, whatever signs of a conjunction are between them and whichever term
that can be one they are in.  The induction is on the members that are left; both states move on
with each. -/
theorem runs_members {sign sign' : Token} (hsign : p.JoinsMembers sign)
    (hsign' : p.JoinsMembers sign') {tss : List (List Token)} (htss : ∀ ts ∈ tss, IsMember ts)
    (hne : tss ≠ []) (hs : s.Ready) (hs' : s'.Ready) (hargs : s.frame.args = s'.frame.args)
    (hruns : p.Runs i s ([sign].intercalate tss) s₁) (hflush : p.flush s₁ = .ok s₂) (i' : Nat) :
    ∃ args, s.frame.args.size + tss.length ≤ args.size ∧ Filled s args s₂ ∧
      ∃ s₁' s₂', p.Runs i' s' ([sign'].intercalate tss) s₁' ∧ p.flush s₁' = .ok s₂' ∧
        Filled s' args s₂' := by
  induction tss generalizing s s' i i' with
  | nil => exact absurd rfl hne
  | cons ts tss ih =>
    obtain ⟨hts, htss⟩ := List.forall_mem_cons.mp htss
    cases tss with
    | nil =>
      rw [List.intercalate_singleton] at hruns ⊢
      obtain ⟨s₁', hruns', habreast⟩ := runs_member hts hargs hs.free hs'.free hruns i'
      obtain ⟨s₂', args, hflush', hsize, hfilled, hfilled'⟩ := habreast.filled hs hs' hflush
      exact ⟨args, hsize, hfilled, s₁', s₂', by simpa using hruns', hflush', hfilled'⟩
    | cons us tss =>
      rw [List.intercalate_cons_cons, List.append_assoc, List.singleton_append] at hruns ⊢
      obtain ⟨r, hmember, hruns⟩ := runs_append_iff.mp hruns
      obtain ⟨r₂, hstep, hruns⟩ := runs_cons_iff.mp hruns
      obtain ⟨r', hmember', habreast⟩ := runs_member hts hargs hs.free hs'.free hmember i'
      obtain ⟨r₂', args, hstep', hsize, ⟨hready, hfilled⟩, hready', hfilled'⟩ :=
        habreast.join hsign hsign' hs hs' hstep (i' + (spelling ts).length)
      obtain ⟨args', hsize', hrest, s₁', s₂', hruns', hflush', hrest'⟩ :=
        ih htss (List.cons_ne_nil us tss) hready hready' (hfilled.args.trans hfilled'.args.symm)
          hruns (i' + (spelling ts).length + sign'.chars.length)
      refine ⟨args', ?_, hfilled.trans hrest, s₁', s₂', hmember'.append (.cons hstep' hruns'),
        hflush', hfilled'.trans hrest'⟩
      rw [hfilled.args] at hsize'
      simp only [List.length_cons] at hsize' ⊢
      omega

section Root

variable {p : Parser} {i i' : Nat} {s s' : State} {sign sign' : Token} {css : List (List Char)}
  {t : Term}

/-- Some texts with a sign between them are read in a state, and they give the arguments of a
conjunction. -/
def Conjoins (p : Parser) (css : List (List Char)) (sign : Token) (i : Nat) (s : State)
    (t : Term) : Prop :=
  ∃ tss s₁ s₂, List.Forall₂ Cuts tss css ∧ p.Runs i s ([sign].intercalate tss) s₁ ∧
    p.flush s₁ = .ok s₂ ∧ Term.and s₂.frame.args.toList = t

/-- The texts are members: nested and not empty. -/
def AreMembers (css : List (List Char)) : Prop :=
  2 ≤ css.length ∧ ∀ cs ∈ css, cs ≠ [] ∧ nests 0 cs

theorem AreMembers.cuts (h : AreMembers css) {tss : List (List Token)}
    (htss : List.Forall₂ Cuts tss css) : tss ≠ [] ∧ 2 ≤ tss.length ∧ ∀ ts ∈ tss, IsMember ts := by
  obtain ⟨hlength, hmembers⟩ := h
  rw [← htss.length_eq] at hlength
  refine ⟨fun hnil => by simp [hnil] at hlength, hlength, ?_⟩
  clear hlength
  induction htss with
  | nil => simp
  | cons hcuts _ ih =>
    obtain ⟨⟨hne, hnests⟩, hmembers⟩ := List.forall_mem_cons.mp hmembers
    exact List.forall_mem_cons.mpr ⟨⟨_, hcuts, hne, hnests⟩, ih hmembers⟩

/-- **It makes no difference** which sign of a conjunction is between the texts, and in which term
they are read. -/
theorem Conjoins.exchange (hcss : AreMembers css) (hsign : p.JoinsMembers sign)
    (hsign' : p.JoinsMembers sign') (hs : s.Ready) (hs' : s'.Ready)
    (hargs : s.frame.args = s'.frame.args) (h : p.Conjoins css sign i s t) (i' : Nat) :
    p.Conjoins css sign' i' s' t := by
  obtain ⟨tss, s₁, s₂, htss, hruns, hflush, ht⟩ := h
  obtain ⟨hne, -, hmembers⟩ := hcss.cuts htss
  obtain ⟨args, -, hfilled, s₁', s₂', hruns', hflush', hfilled'⟩ :=
    runs_members hsign hsign' hmembers hne hs hs' hargs hruns hflush i'
  refine ⟨tss, s₁', s₂', htss, hruns', hflush', ?_⟩
  rw [hfilled'.args, ← hfilled.args, ht]

/-- The arguments that members give in a state without any are at least two. -/
theorem filled_of_runs (hcss : AreMembers css) (hsign : p.JoinsMembers sign) (hs : s.Ready)
    {tss : List (List Token)} (htss : List.Forall₂ Cuts tss css) {s₁ s₂ : State}
    (hruns : p.Runs i s ([sign].intercalate tss) s₁) (hflush : p.flush s₁ = .ok s₂) :
    Filled s s₂.frame.args s₂ ∧ 2 ≤ s₂.frame.args.size := by
  obtain ⟨hne, hlength, hmembers⟩ := hcss.cuts htss
  obtain ⟨args, hsize, hfilled, -⟩ :=
    runs_members hsign hsign hmembers hne hs hs rfl hruns hflush i
  rw [hfilled.args]
  exact ⟨hfilled, by omega⟩

theorem exists_cuts_members {c : Char} {cs : List Char} (hcuts : ∃ ts, Cuts ts cs)
    (hsubset : [c].intercalate css ⊆ cs) : ∃ tss, List.Forall₂ Cuts tss css := by
  refine exists_forall₂_cuts fun ds hds d hd => ?_
  exact exists_cuts_iff.mp hcuts d (hsubset (subset_intercalate hds hd))

theorem State.ready_start : State.start.Ready := ⟨Slot.isFree_vacant, rfl⟩

/-- Members at the root, with signs of a conjunction between them. -/
theorem parse_joined_iff (hcss : AreMembers css) {c : Char} (hc : ofPunctuation? c = some sign)
    (hsign : p.JoinsMembers sign) {text : String}
    (hexpand : (p.dialect.expand text).toList = [c].intercalate css) :
    p.parse text = .ok t ↔ p.Conjoins css sign 0 .start t := by
  -- The arguments are not a single conjunction, so the root is not replaced by one of them.
  have hroot : ∀ {s₂ : State}, Filled .start s₂.frame.args s₂ → 2 ≤ s₂.frame.args.size →
      rootTerm s₂.frame.name s₂.frame.args.toList = Term.and s₂.frame.args.toList := by
    intro s₂ hfilled hsize
    refine rootTerm_conjunction ?_ fun inner hargs => ?_
    · have hname := hfilled.name
      cases hs₂ : s₂.frame.name <;> simp_all
    · have hone := congrArg List.length hargs
      simp at hone
      omega
  rw [parse_eq_ok_iff_runs, hexpand]
  constructor
  · rintro ⟨ts, s₁, s₂, hcuts, hruns, -, hflush, rfl⟩
    obtain ⟨tss, htss⟩ := exists_cuts_members ⟨ts, hcuts⟩ (List.Subset.refl _)
    obtain rfl := hcuts.unique (.intercalate hc htss)
    obtain ⟨hfilled, hsize⟩ := filled_of_runs hcss hsign State.ready_start htss hruns hflush
    exact ⟨tss, s₁, s₂, htss, hruns, hflush, (hroot hfilled hsize).symm⟩
  · rintro ⟨tss, s₁, s₂, htss, hruns, hflush, rfl⟩
    obtain ⟨hfilled, hsize⟩ := filled_of_runs hcss hsign State.ready_start htss hruns hflush
    have houter : s₁.outer = [] := (outer_of_flush hflush).symm.trans hfilled.outer
    exact ⟨_, s₁, s₂, .intercalate hc htss, hruns, houter, hflush, hroot hfilled hsize⟩

/-- In a term `and` that is opened at the root. -/
def State.inConjunction (p : Parser) : State :=
  p.openTerm 3 { State.start with slot := .word andName }

theorem State.ready_inConjunction : (State.inConjunction p).Ready := ⟨Slot.isFree_vacant, rfl⟩

/-- The term `and` is closed and is the only argument of the root. -/
theorem closeTerm_inConjunction {s₁ s₂ : State} (hflush : p.flush s₁ = .ok s₂)
    (hfilled : Filled (State.inConjunction p) s₂.frame.args s₂) (i : Nat) :
    ∃ captures, p.closeTerm i s₁ = .ok ⟨[],
      ⟨none, #[.term (some andName) s₂.frame.args.toList], 0⟩, .vacant, captures⟩ := by
  have houter : s₂.outer = [State.start.frame] := hfilled.outer
  have hnode : s₂.frame.toNode = .term (some andName) s₂.frame.args.toList := by
    rw [Frame.toNode, hfilled.named rfl]
  obtain ⟨args, hs₂⟩ := exists_of_flush hflush
  have hslot : s₂.slot = .vacant := by rw [hs₂]
  refine ⟨settle s₂.frame.openedAt s₂.frame.args.toList s₂.captures, ?_⟩
  rw [closeTerm, hflush]
  simp only [bind, Except.bind, houter, hnode, hslot]
  rfl

/-- Members as the arguments of a term `and` at the root. -/
theorem parse_application_iff (hcss : AreMembers css) {text : String}
    (hexpand : (p.dialect.expand text).toList =
      andName.toList ++ '(' :: ([','].intercalate css ++ [')'])) :
    p.parse text = .ok t ↔ p.Conjoins css .comma 4 (State.inConjunction p) t := by
  have hcuts : ∀ {tss}, List.Forall₂ Cuts tss css →
      Cuts (.word andName :: .opening :: ([.comma].intercalate tss ++ [.closing]))
        (andName.toList ++ '(' :: ([','].intercalate css ++ [')'])) := by
    intro tss htss
    have hmembers : Cuts ([.comma].intercalate tss ++ [.closing])
        ([','].intercalate css ++ [')']) :=
      (Cuts.intercalate rfl htss).join rfl cuts_nil
    exact (hmembers.cons_punctuation rfl).cons_word (by decide) (endsWord_cons.mpr (by decide))
  have hroot : ∀ args, rootTerm none #[Node.term (some andName) args].toList = Term.and args :=
    fun args => rootTerm_nested rfl args
  rw [parse_eq_ok_iff_runs, hexpand]
  constructor
  · rintro ⟨ts, s₄, s₅, hts, hruns, -, hend, rfl⟩
    obtain ⟨tss, htss⟩ : ∃ tss, List.Forall₂ Cuts tss css :=
      exists_cuts_members (c := ',') ⟨ts, hts⟩ (by intro d hd; simp [hd])
    obtain rfl := hts.unique (hcuts htss)
    -- The run reads the name, the parenthesis, the members and the parenthesis that closes.
    obtain ⟨_, hname, hruns⟩ := runs_cons_iff.mp hruns
    cases hname
    obtain ⟨_, hopen, hruns⟩ := runs_cons_iff.mp hruns
    cases hopen
    obtain ⟨s₁, hmembers, hclosing⟩ := runs_append_iff.mp hruns
    obtain ⟨s₃, hclose, hnil⟩ := runs_cons_iff.mp hclosing
    cases hnil
    obtain ⟨s₂, hflush, -⟩ := exists_of_bind_eq_ok hclose
    have hmembers : p.Runs 4 (State.inConjunction p) ([.comma].intercalate tss) s₁ := hmembers
    obtain ⟨hfilled, -⟩ := filled_of_runs hcss joinsMembers_comma State.ready_inConjunction htss
      hmembers hflush
    obtain ⟨captures, hclosed⟩ := closeTerm_inConjunction hflush hfilled
      (4 + (spelling ([.comma].intercalate tss)).length)
    cases hclosed.symm.trans hclose
    cases hend
    exact ⟨tss, s₁, s₂, htss, hmembers, hflush, (hroot _).symm⟩
  · rintro ⟨tss, s₁, s₂, htss, hruns, hflush, rfl⟩
    obtain ⟨hfilled, -⟩ := filled_of_runs hcss joinsMembers_comma State.ready_inConjunction htss
      hruns hflush
    obtain ⟨captures, hclosed⟩ := closeTerm_inConjunction hflush hfilled
      (4 + (spelling ([.comma].intercalate tss)).length)
    have hrun : p.Runs 0 .start
        (.word andName :: .opening :: ([.comma].intercalate tss ++ [.closing])) _ :=
      .cons rfl (.cons rfl (hruns.append (.cons hclosed runs_nil)))
    exact ⟨_, _, _, hcuts htss, hrun, rfl, rfl, hroot _⟩

end Root

/-- **Three spellings of a conjunction at the root agree.**  Two or more texts, none of them empty,
with balanced parentheses and no separators or signs outside of them, can be joined by `&` or by
commas, or be the arguments of `and`: if one of these is accepted, then all are, with the same tree.
Each text is expanded by itself, and the expanded texts are members again. -/
theorem conjunction_spellings (p : Parser) {texts : List String} (hlength : 2 ≤ texts.length)
    (hnonempty : ∀ text ∈ texts, text ≠ "") (hnests : ∀ text ∈ texts, nests 0 text.toList)
    (t : Term) :
    (p.parse ("&".intercalate texts) = .ok t ↔ p.parse (",".intercalate texts) = .ok t) ∧
      (p.parse (",".intercalate texts) = .ok t ↔
        p.parse ("and(" ++ ",".intercalate texts ++ ")") = .ok t) := by
  have hcss : ∀ cs ∈ texts.map String.toList, nests 0 cs := List.forall_mem_map.mpr hnests
  have hmembers : AreMembers ((texts.map String.toList).map p.dialect.expandChars) := by
    refine ⟨by simpa using hlength, List.forall_mem_map.mpr (List.forall_mem_map.mpr ?_)⟩
    intro text htext
    have hne : text.toList ≠ [] := fun hnil =>
      hnonempty text htext (String.toList_eq_nil_iff.mp hnil)
    exact ⟨Dialect.expandChars_ne_nil hne, Dialect.nests_expandChars (hnests text htext)⟩
  have hjoined : ∀ {separator : String} {c : Char}, separator.toList = [c] →
      c ∈ Shorthand.closingSigns → (p.dialect.expand (separator.intercalate texts)).toList =
        [c].intercalate ((texts.map String.toList).map p.dialect.expandChars) := by
    intro separator c hseparator hc
    rw [Dialect.toList_expand, String.toList_intercalate, hseparator]
    exact Dialect.expandChars_intercalate hc hcss
  have happlied : (p.dialect.expand ("and(" ++ ",".intercalate texts ++ ")")).toList =
      andName.toList ++ '(' ::
        ([','].intercalate ((texts.map String.toList).map p.dialect.expandChars) ++ [')']) := by
    have htext : ("and(" ++ ",".intercalate texts ++ ")").toList =
        andName.toList ++ '(' :: ([','].intercalate (texts.map String.toList) ++ [')']) := by
      simp [String.toList_intercalate, andName]
    rw [Dialect.toList_expand, htext]
    exact Dialect.expandChars_application (List.all_eq_true.mp (by decide)) hcss
  rw [parse_joined_iff hmembers rfl joinsMembers_ampersand (hjoined rfl (by decide)),
    parse_joined_iff hmembers rfl joinsMembers_comma (hjoined rfl (by decide)),
    parse_application_iff hmembers happlied]
  refine ⟨⟨fun h => ?_, fun h => ?_⟩, ⟨fun h => ?_, fun h => ?_⟩⟩
  · exact h.exchange hmembers joinsMembers_ampersand joinsMembers_comma State.ready_start
      State.ready_start rfl 0
  · exact h.exchange hmembers joinsMembers_comma joinsMembers_ampersand State.ready_start
      State.ready_start rfl 0
  · exact h.exchange hmembers joinsMembers_comma joinsMembers_comma State.ready_start
      State.ready_inConjunction rfl 4
  · exact h.exchange hmembers joinsMembers_comma joinsMembers_comma State.ready_inConjunction
      State.ready_start rfl 0

/-- A comparison, a term and a group. -/
theorem conjunction_spellings_group : ∃ t, parse {} "a=1&b(c,d)&(e|f)" = .ok t ∧
    parse {} "a=1,b(c,d),(e|f)" = .ok t ∧ parse {} "and(a=1,b(c,d),(e|f))" = .ok t := by
  obtain ⟨t, ht⟩ : ∃ t, parse {} "a=1&b(c,d)&(e|f)" = .ok t := ⟨_, by with_unfolding_all rfl⟩
  have hspellings := @conjunction_spellings {} ["a=1", "b(c,d)", "(e|f)"] (by decide) (by decide)
    (by decide) t
  have hcomma := hspellings.1.mp ht
  exact ⟨t, ht, hcomma, hspellings.2.mp hcomma⟩

end Parser

end ResourceQuery
