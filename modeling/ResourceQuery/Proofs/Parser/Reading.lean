import ResourceQuery.Proofs.Parser.Shape

/-!
# Reading tokens

What the stack machine makes of the tokens of a node: a word that waits, or an argument pushed
onto the term under construction.  Separators make an argument of either, so tokens in
parentheses denote a list, a term or a group.  Which clauses are collected on the way does not
matter here, so statements leave the captures open.

## Main definitions

* `Parser.Runs`: the machine goes from one state to another over some tokens
* `Parser.Reads`: the machine has read a node
* `Parser.Denotes`: some tokens denote a node, wherever they stand

## Main results

* `Parser.denotes_list`, `Parser.denotes_term`, `Parser.denotes_group`: tokens in parentheses
* `Parser.parse_of_runs`: the tree of a text from a run over its tokens
-/

namespace ResourceQuery

namespace Parser

open Token (placed spelling)

variable {p : Parser}

/-- The machine goes from one state to another over tokens that start at a position. -/
def Runs (p : Parser) (position : Nat) (s : State) (ts : List Token) (s' : State) : Prop :=
  (placed position ts).foldlM p.step s = .ok s'

theorem runs_nil {position : Nat} {s : State} : p.Runs position s [] s := rfl

/-- A step and then a run make a run. -/
theorem Runs.cons {position : Nat} {s s₁ s₂ : State} {t : Token} {ts : List Token}
    (h : p.step s ⟨t, position⟩ = .ok s₁) (hs : p.Runs (position + t.chars.length) s₁ ts s₂) :
    p.Runs position s (t :: ts) s₂ := by
  rw [Runs, placed, List.foldlM_cons, h]
  exact hs

/-- **Runs compose** over appended tokens. -/
theorem Runs.append {position : Nat} {s s₁ s₂ : State} {ts us : List Token}
    (h : p.Runs position s ts s₁) (hs : p.Runs (position + (spelling ts).length) s₁ us s₂) :
    p.Runs position s (ts ++ us) s₂ := by
  rw [Runs, Token.placed_append, List.foldlM_append, h]
  exact hs

theorem runs_cons_iff {position : Nat} {s s₂ : State} {t : Token} {ts : List Token} :
    p.Runs position s (t :: ts) s₂ ↔ ∃ s₁, p.step s ⟨t, position⟩ = .ok s₁ ∧
      p.Runs (position + t.chars.length) s₁ ts s₂ := by
  constructor
  · intro h
    rw [Runs, placed, List.foldlM_cons] at h
    exact exists_of_bind_eq_ok h
  · rintro ⟨s₁, hstep, hts⟩
    exact .cons hstep hts

/-- A run over appended tokens can be taken apart between them. -/
theorem runs_append_iff {position : Nat} {s s₂ : State} {ts us : List Token} :
    p.Runs position s (ts ++ us) s₂ ↔ ∃ s₁, p.Runs position s ts s₁ ∧
      p.Runs (position + (spelling ts).length) s₁ us s₂ := by
  constructor
  · intro h
    rw [Runs, Token.placed_append, List.foldlM_append] at h
    exact exists_of_bind_eq_ok h
  · rintro ⟨s₁, hts, hus⟩
    exact hts.append hus

/-- No word waits. -/
def Slot.IsFree (slot : Slot) : Prop := ∀ w, slot ≠ .word w

theorem Slot.isFree_vacant : Slot.vacant.IsFree := by
  simp [Slot.IsFree]

theorem Slot.isFree_separated : Slot.separated.IsFree := by
  simp [Slot.IsFree]

/-- No word waits in a free slot, so nothing is read. -/
theorem flush_of_isFree {s : State} (h : s.slot.IsFree) :
    p.flush s = .ok { s with slot := .vacant } := by
  unfold flush
  split
  · next w hw => exact absurd hw (h w)
  · rfl

/-- The state after a node was read in another: a word that denotes it waits, or it is the last
argument. -/
inductive Reads (p : Parser) (s : State) (m : Node) : State → Prop
  | word {w : String} (h : p.convert w = .ok m) : Reads p s m { s with slot := .word w }
  | pushed (captures : List Capture) : Reads p s m
      { s with frame := s.frame.push m, slot := .vacant, captures := captures }

namespace Reads

variable {s s₁ : State} {m : Node}

/-- What was read before a term ends becomes its last argument. -/
theorem flush (h : p.Reads s m s₁) : ∃ captures, p.flush s₁ =
    .ok { s with frame := s.frame.push m, slot := .vacant, captures := captures } := by
  cases h with
  | @word w hw => exact ⟨s.captures, by rw [Parser.flush]; simp only [hw]; rfl⟩
  | pushed captures => exact ⟨captures, flush_of_isFree Slot.isFree_vacant⟩

/-- A comma makes an argument of what was read before it. -/
theorem separate (h : p.Reads s m s₁) (position : Nat) : ∃ captures, p.separate position s₁ =
    .ok { s with frame := s.frame.push m, slot := .separated, captures := captures } := by
  cases h with
  | @word w hw => exact ⟨s.captures, by rw [Parser.separate]; simp only [hw]; rfl⟩
  | pushed captures => exact ⟨captures, rfl⟩

/-- A sign makes an argument of what was read before it, and names the group as well. -/
theorem conjoin (h : p.Reads s m s₁) {name : String} (hname : s.frame.name.all (· == name))
    (position : Nat) : ∃ captures, p.conjoin name position s₁ =
      .ok { s with frame := { s.frame.push m with name := some name }, slot := .vacant,
                   captures := captures } := by
  have hmixed : ¬ s.frame.name.any (· != name) := by
    cases hn : s.frame.name <;> simp_all
  cases h with
  | @word w hw =>
    refine ⟨s.captures, ?_⟩
    rw [Parser.conjoin, if_neg hmixed]
    dsimp only
    rw [Parser.flush]
    simp only [hw]
    rfl
  | pushed captures =>
    refine ⟨captures, ?_⟩
    rw [Parser.conjoin, Frame.push, if_neg hmixed]
    rfl

end Reads

/-- Some tokens denote a node: wherever they stand, reading them reads the node. -/
def Denotes (p : Parser) (ts : List Token) (m : Node) : Prop :=
  ∀ position s, s.slot.IsFree → ∃ s₁, p.Runs position s ts s₁ ∧ p.Reads s m s₁

/-- A word denotes the node it is converted to. -/
theorem denotes_word {w : String} {m : Node} (h : p.convert w = .ok m) :
    p.Denotes [.word w] m := by
  intro position s _
  exact ⟨_, .cons rfl runs_nil, .word h⟩

/-! ## Arguments one after the other -/

/-- Add arguments to a term under construction. -/
def Frame.pushAll (f : Frame) (ms : List Node) : Frame := ms.foldl Frame.push f

/-- Arguments are pushed in their order. -/
theorem Frame.pushAll_eq (f : Frame) (ms : List Node) :
    f.pushAll ms = { f with args := f.args ++ ms.toArray } := by
  induction ms generalizing f with
  | nil => simp [pushAll]
  | cons m ms ih =>
    have hpush := ih (f.push m)
    rw [pushAll] at hpush ⊢
    rw [List.foldl_cons, hpush]
    simp [push]

theorem Frame.toNode_pushAll_unnamed (position : Nat) (ms : List Node) :
    (Frame.pushAll ⟨none, #[], position⟩ ms).toNode = .list ms := by
  simp [pushAll_eq, toNode]

theorem Frame.toNode_pushAll_named (name : String) (position : Nat) (ms : List Node) :
    (Frame.pushAll ⟨some name, #[], position⟩ ms).toNode = .term (some name) ms := by
  simp [pushAll_eq, toNode]

/-- A token that makes an argument of what was read, and takes the term under construction from
one name to another. -/
def Separates (p : Parser) (sign : Token) (before after : Option String) : Prop :=
  ∀ {s s₁ m}, p.Reads s m s₁ → s.frame.name = before → ∀ position, ∃ slot captures,
    p.step s₁ ⟨sign, position⟩ = .ok
      { s with frame := { s.frame.push m with name := after }, slot := slot, captures := captures } ∧
    slot.IsFree

/-- A comma separates arguments and leaves the name as it is. -/
theorem separates_comma (name : Option String) : p.Separates .comma name name := by
  rintro s s₁ m h rfl position
  obtain ⟨captures, hstep⟩ := h.separate position
  exact ⟨.separated, captures, hstep, Slot.isFree_separated⟩

/-- An ampersand separates them in a group that is a conjunction or has no name yet. -/
theorem separates_ampersand {name : Option String} (h : name.all (· == andName)) :
    p.Separates .ampersand name (some andName) := by
  rintro s s₁ m hm rfl position
  obtain ⟨captures, hstep⟩ := hm.conjoin h position
  exact ⟨.vacant, captures, hstep, Slot.isFree_vacant⟩

theorem separates_pipe {name : Option String} (h : name.all (· == orName)) :
    p.Separates .pipe name (some orName) := by
  rintro s s₁ m hm rfl position
  obtain ⟨captures, hstep⟩ := hm.conjoin h position
  exact ⟨.vacant, captures, hstep, Slot.isFree_vacant⟩

/-- Reading arguments with separators between them that leave the name of the term as it is. -/
theorem runs_intercalate {sign : Token} {name : Option String} (hsign : p.Separates sign name name)
    {tss : List (List Token)} {ms : List Node} (h : List.Forall₂ p.Denotes tss ms)
    (position : Nat) {s : State} (hslot : s.slot.IsFree) (hname : s.frame.name = name) :
    ∃ s₁ captures, p.Runs position s ([sign].intercalate tss) s₁ ∧
      p.flush s₁ = .ok
        { s with frame := s.frame.pushAll ms, slot := .vacant, captures := captures } := by
  induction h generalizing position s with
  | nil => exact ⟨s, s.captures, runs_nil, flush_of_isFree hslot⟩
  | @cons ts m tss ms hts htss ih =>
    obtain ⟨s₁, hruns, hreads⟩ := hts position s hslot
    cases htss with
    | nil =>
      obtain ⟨captures, hflush⟩ := hreads.flush
      exact ⟨s₁, captures, by rwa [List.intercalate_singleton], hflush⟩
    | cons hus htss =>
      obtain ⟨slot, captures, hstep, hfree⟩ := hsign hreads hname
        (position + (spelling ts).length)
      obtain ⟨s₃, captures', hruns', hflush⟩ := ih
        (position + (spelling ts).length + sign.chars.length)
        (s := { s with frame := { s.frame.push m with name := name }, slot := slot,
                       captures := captures }) hfree rfl
      refine ⟨s₃, captures', ?_, ?_⟩
      · rw [List.intercalate_cons_cons, List.append_assoc, List.singleton_append]
        exact hruns.append (.cons hstep hruns')
      · rw [hflush, Frame.pushAll, Frame.pushAll, List.foldl_cons]
        subst name
        rfl

/-- Reading two or more arguments with signs between them, the first of which names the term. -/
theorem runs_intercalate_naming {sign : Token} {before : Option String} {name : String}
    (hfirst : p.Separates sign before (some name))
    (hsign : p.Separates sign (some name) (some name))
    {tss : List (List Token)} {ms : List Node} (h : List.Forall₂ p.Denotes tss ms)
    (hlength : 2 ≤ tss.length) (position : Nat) {s : State} (hslot : s.slot.IsFree)
    (hname : s.frame.name = before) :
    ∃ s₁ captures, p.Runs position s ([sign].intercalate tss) s₁ ∧
      p.flush s₁ = .ok
        { s with frame := Frame.pushAll { s.frame with name := some name } ms, slot := .vacant,
                 captures := captures } := by
  match h with
  | .nil => simp at hlength
  | .cons _ .nil => simp at hlength
  | .cons (a := ts) (b := m) hts (.cons hus htss) =>
    obtain ⟨s₁, hruns, hreads⟩ := hts position s hslot
    obtain ⟨slot, captures, hstep, hfree⟩ := hfirst hreads hname
      (position + (spelling ts).length)
    obtain ⟨s₃, captures', hruns', hflush⟩ := runs_intercalate hsign (.cons hus htss)
      (position + (spelling ts).length + sign.chars.length)
      (s := { s with frame := { s.frame.push m with name := some name }, slot := slot,
                     captures := captures }) hfree rfl
    refine ⟨s₃, captures', ?_, hflush⟩
    rw [List.intercalate_cons_cons, List.append_assoc, List.singleton_append]
    exact hruns.append (.cons hstep hruns')

/-! ## Parentheses -/

/-- Tokens in parentheses. -/
def inParentheses (ts : List Token) : List Token := .opening :: ts ++ [.closing]

theorem frame_openTerm {s : State} (h : s.slot.IsFree) (position : Nat) :
    (p.openTerm position s).frame = ⟨none, #[], position⟩ := by
  unfold openTerm
  split
  · next w hw => exact absurd hw (h w)
  · rfl

/-- A term is finished by its `)`, when what is in the parentheses fills it.  Closing a term settles
the clauses captured in it, which only the captures show. -/
theorem runs_inParentheses {position : Nat} {s : State} {ts : List Token} {f : Frame} {m : Node}
    (hm : f.toNode = m)
    (h : ∃ s₁ captures, p.Runs (position + 1) (p.openTerm position s) ts s₁ ∧ p.flush s₁ = .ok
      { p.openTerm position s with frame := f, slot := .vacant, captures := captures }) :
    ∃ captures, p.Runs position s (inParentheses ts)
      { s with frame := s.frame.push m, slot := .vacant, captures := captures } := by
  obtain ⟨s₁, captures, hruns, hflush⟩ := h
  refine ⟨settle f.openedAt f.args.toList captures, ?_⟩
  have hopen : p.step s ⟨.opening, position⟩ = .ok (p.openTerm position s) := rfl
  refine Runs.cons hopen (hruns.append (.cons ?_ runs_nil))
  rw [step]
  dsimp only
  rw [closeTerm, hflush, ← hm]
  rfl

/-- Nodes with commas between them, in parentheses, denote a list. -/
theorem denotes_list {tss : List (List Token)} {ms : List Node}
    (h : List.Forall₂ p.Denotes tss ms) :
    p.Denotes (inParentheses ([.comma].intercalate tss)) (.list ms) := by
  intro position s hslot
  have hframe := frame_openTerm (p := p) hslot position
  have hfill := runs_intercalate (separates_comma _) h (position + 1)
    (s := p.openTerm position s) Slot.isFree_vacant rfl
  rw [hframe] at hfill
  obtain ⟨captures, hruns⟩ := runs_inParentheses (Frame.toNode_pushAll_unnamed position ms) hfill
  exact ⟨_, hruns, .pushed captures⟩

/-- A group of two or more members, named by the first of its signs. -/
theorem denotes_group {sign : Token} {name : String}
    (hfirst : p.Separates sign none (some name))
    (hsign : p.Separates sign (some name) (some name)) {tss : List (List Token)} {ms : List Node}
    (h : List.Forall₂ p.Denotes tss ms) (hlength : 2 ≤ tss.length) :
    p.Denotes (inParentheses ([sign].intercalate tss)) (.term (some name) ms) := by
  intro position s hslot
  have hframe := frame_openTerm (p := p) hslot position
  have hfill := runs_intercalate_naming hfirst hsign h hlength (position + 1)
    (s := p.openTerm position s) Slot.isFree_vacant (by rw [hframe])
  rw [hframe] at hfill
  obtain ⟨captures, hruns⟩ := runs_inParentheses (Frame.toNode_pushAll_named name position ms) hfill
  exact ⟨_, hruns, .pushed captures⟩

/-- Nodes with commas between them, in parentheses and with a name in front, denote a term. -/
theorem denotes_term (name : String) {tss : List (List Token)} {ms : List Node}
    (h : List.Forall₂ p.Denotes tss ms) :
    p.Denotes (.word name :: inParentheses ([.comma].intercalate tss)) (.term (some name) ms) := by
  intro position s _
  have hfill := runs_intercalate (separates_comma (some name)) h
    (position + name.toList.length + 1)
    (s := p.openTerm (position + name.toList.length) { s with slot := .word name })
    Slot.isFree_vacant rfl
  obtain ⟨captures, hruns⟩ :=
    runs_inParentheses (Frame.toNode_pushAll_named name (position + name.toList.length) ms) hfill
  exact ⟨_, .cons rfl hruns, .pushed captures⟩

/-- The tree of a text from a run over the tokens that its expansion spells. -/
theorem parse_of_runs {text : String} {ts : List Token} (hspells : Token.Spells ts)
    (hexpand : p.dialect.expand text = String.ofList (spelling ts)) {s : State} {f : Frame}
    {captures : List Capture} (hruns : p.Runs 0 .start ts s)
    (hflush : p.flush s = .ok { State.start with frame := f, captures := captures }) :
    p.parse text = .ok (rootTerm f.name f.args.toList) := by
  have hbottom : s.outer = [] := (outer_of_flush hflush).symm
  refine parse_eq_ok_iff.mpr ⟨_, run_eq_ok_iff.mpr ⟨s, _, ?_, ?_, hbottom, hflush, rfl, rfl⟩⟩
  · rw [hexpand, hspells.scan]
    exact hruns
  · rw [hexpand, hspells.scan]

end Parser

end ResourceQuery
