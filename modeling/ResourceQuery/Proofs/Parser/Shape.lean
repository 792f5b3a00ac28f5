import Mathlib.Data.List.Basic
import ResourceQuery.Parser.Basic
import ResourceQuery.Proofs.Converter.ReadBack
import ResourceQuery.Proofs.Term.Basic
import ResourceQuery.Proofs.Token.Scan

/-!
# The trees a parser builds

Every tree that a parser builds has words for names, and its values come from the converters.
The root is a group.  All of this is kept by each step of the stack machine, so it holds of the
tree at the end.

## Main definitions

* `Parser.Gives`: the parser's words denote values that pass a test
* `Parser.State.Shaped`: the invariant of the stack machine

## Main results

* `Parser.run_eq_ok_iff`: a parse is a run of the machine that ends at the bottom of its stack
* `Parser.State.Shaped.step`: one token keeps the invariant
* `Parser.shaped_of_parse`: the names and values of a parsed tree, and its root
-/

namespace ResourceQuery

/-- A computation in two steps succeeds if both do. -/
theorem exists_of_bind_eq_ok {ε α β : Type} {x : Except ε α} {f : α → Except ε β} {b : β}
    (h : x >>= f = .ok b) : ∃ a, x = .ok a ∧ f a = .ok b := by
  cases x with
  | error e => cases h
  | ok a => exact ⟨a, rfl, h⟩

theorem exists_of_map_eq_ok {ε α β : Type} {x : Except ε α} {f : α → β} {b : β}
    (h : x.map f = .ok b) : ∃ a, x = .ok a ∧ f a = b := by
  cases x with
  | error e => cases h
  | ok a => exact ⟨a, rfl, Except.ok.inj h⟩

namespace Parser

variable {p : Parser}

/-- A text is accepted by a run of the machine over the scanned text that ends at the bottom of its
stack. -/
theorem run_eq_ok_iff {text : String} {t : Term} {clauses : List Clause} :
    p.run text = .ok (t, clauses) ↔ ∃ s s',
      (Token.scan (p.dialect.expand text)).lexemes.foldlM p.step State.start = .ok s ∧
      (Token.scan (p.dialect.expand text)).foreign = none ∧
      s.outer = [] ∧ p.flush s = .ok s' ∧ rootTerm s'.frame.name s'.frame.args.toList = t ∧
      s'.captures.map (·.clause) = clauses := by
  unfold run runExpanded finish
  constructor
  · intro hend
    obtain ⟨s, hrun, hend⟩ := exists_of_bind_eq_ok hend
    split at hend
    · cases hend
    · next hnone =>
      extract_lets rest at hend
      split_ifs at hend with houter
      · cases hend
      · obtain ⟨s', hflush, h⟩ := exists_of_bind_eq_ok hend
        cases h
        exact ⟨s, s', hrun, by simpa [Scan.error?] using hnone, by simpa using houter, hflush, rfl,
          rfl⟩
  · rintro ⟨s, s', hrun, hnone, houter, hflush, rfl, rfl⟩
    simp [hrun, hnone, houter, hflush, Scan.error?, bind, Except.bind, pure, Except.pure]

theorem parse_eq_ok_iff {text : String} {t : Term} :
    p.parse text = .ok t ↔ ∃ clauses, p.run text = .ok (t, clauses) := by
  constructor
  · intro h
    obtain ⟨⟨_, clauses⟩, hrun, rfl⟩ := exists_of_map_eq_ok h
    exact ⟨clauses, hrun⟩
  · rintro ⟨clauses, hrun⟩
    rw [parse, hrun]
    rfl

/-- A word that is taken as an argument leaves the terms around it alone. -/
theorem outer_of_flush {s s' : State} (h : p.flush s = .ok s') : s'.outer = s.outer := by
  unfold flush at h
  split at h
  · obtain ⟨n, -, h⟩ := exists_of_bind_eq_ok h
    cases h
    rfl
  · cases h
    rfl

/-! ## The invariant -/

/-- The words of the parser denote values that pass a test, and so does the value of a gap. -/
structure Gives (p : Parser) (test : Value → Bool) : Prop where
  word : ∀ {w v}, p.registry.convert p.dialect.defaultConverter w = .ok v → test v
  gap : p.dialect.emptyArguments → test p.dialect.emptyValue

/-- A name that text can give a term. -/
def isTermName (name : Option String) : Bool := name.any Text.isWord

/-- A term under construction with a word for a name, if it has one. -/
structure Frame.Shaped (test : Value → Bool) (f : Frame) : Prop where
  name : ∀ w ∈ f.name, Text.isWord w
  args : ∀ n ∈ f.args.toList, n.all isTermName test

/-- The name of the outermost of some terms, the innermost first. -/
def bottomName : Frame → List Frame → Option String
  | f, [] => f.name
  | _, f :: outer => bottomName f outer

/-- An argument of the innermost term does not change what the root is named. -/
theorem bottomName_push (f : Frame) (n : Node) (outer : List Frame) :
    bottomName (f.push n) outer = bottomName f outer := by
  cases outer <;> rfl

/-- The terms under construction are shaped, a waiting word is one, and at the bottom of the
stack is a group. -/
structure State.Shaped (test : Value → Bool) (s : State) : Prop where
  frame : s.frame.Shaped test
  outer : ∀ f ∈ s.outer, f.Shaped test
  slot : ∀ w, s.slot = .word w → Text.isWord w
  root : bottomName s.frame s.outer ∈ [none, some andName, some orName]

variable {test : Value → Bool}

theorem Frame.Shaped.push {f : Frame} (hf : f.Shaped test) {n : Node}
    (hn : n.all isTermName test) : (f.push n).Shaped test where
  name := hf.name
  args m hm := by
    rw [Frame.push, Array.toList_push, List.mem_append, List.mem_singleton] at hm
    rcases hm with hm | rfl
    · exact hf.args m hm
    · exact hn

/-- The node of a term has the shape of its parts. -/
theorem Frame.Shaped.toNode {f : Frame} (hf : f.Shaped test) : f.toNode.all isTermName test := by
  unfold Frame.toNode
  split
  · exact Node.all_list.mpr hf.args
  · next name hname =>
    exact Node.all_term.mpr ⟨by simpa [isTermName] using hf.name name hname, hf.args⟩

theorem Gives.convert (hp : p.Gives test) {w : String} {n : Node} (h : p.convert w = .ok n) :
    n.all isTermName test := by
  obtain ⟨v, hv, rfl⟩ := exists_of_map_eq_ok h
  exact Node.all_value.mpr (hp.word hv)

theorem State.Shaped.push {s : State} (hs : s.Shaped test) {n : Node}
    (hn : n.all isTermName test) {slot : Slot} (hslot : ∀ w, slot = .word w → Text.isWord w) :
    State.Shaped test { s with frame := s.frame.push n, slot := slot } where
  frame := hs.frame.push hn
  outer := hs.outer
  slot := hslot
  root := by
    rw [bottomName_push]
    exact hs.root

/-- Reading the word that waits keeps the shape. -/
theorem State.Shaped.flush (hp : p.Gives test) {s s' : State} (hs : s.Shaped test)
    (h : p.flush s = .ok s') : s'.Shaped test := by
  unfold Parser.flush at h
  split at h
  · obtain ⟨n, hn, h⟩ := exists_of_bind_eq_ok h
    cases h
    exact hs.push (hp.convert hn) (by simp)
  · cases h
    exact ⟨hs.frame, hs.outer, by simp, hs.root⟩

theorem State.Shaped.openTerm {s : State} (hs : s.Shaped test) (position : Nat) :
    (p.openTerm position s).Shaped test where
  frame := by
    refine ⟨fun w hw => ?_, by simp [Parser.openTerm]⟩
    unfold Parser.openTerm at hw
    split at hw
    · next text hslot =>
      cases hw
      exact hs.slot w hslot
    · cases hw
  outer f hf := by
    rcases List.mem_cons.mp hf with rfl | hf
    · exact hs.frame
    · exact hs.outer f hf
  slot := by simp [Parser.openTerm]
  root := hs.root

/-- Closing a term keeps the shape.  It becomes an argument of its parent, which is the innermost
term now. -/
theorem State.Shaped.closeTerm (hp : p.Gives test) {s s' : State} {position : Nat}
    (hs : s.Shaped test) (h : p.closeTerm position s = .ok s') : s'.Shaped test := by
  obtain ⟨s₁, hflush, h⟩ := exists_of_bind_eq_ok h
  have hs₁ := hs.flush hp hflush
  split at h
  · cases h
  · next parent outer houter =>
    cases h
    have hparent := hs₁.outer parent (by simp [houter])
    refine ⟨hparent.push hs₁.frame.toNode, fun f hf => hs₁.outer f (by simp [houter, hf]),
      hs₁.slot, ?_⟩
    have hroot := hs₁.root
    rw [houter, bottomName] at hroot
    rwa [bottomName_push]

theorem State.Shaped.separate (hp : p.Gives test) {s s' : State} {position : Nat}
    (hs : s.Shaped test) (h : p.separate position s = .ok s') : s'.Shaped test := by
  unfold Parser.separate at h
  split at h
  · cases h
    exact ⟨hs.frame, hs.outer, by simp, hs.root⟩
  · next hslot =>
    split_ifs at h with hempty
    · cases h
      exact hs.push (Node.all_value.mpr (hp.gap hempty)) (by simp [hslot])
  · obtain ⟨n, hn, h⟩ := exists_of_bind_eq_ok h
    cases h
    exact hs.push (hp.convert hn) (by simp)

/-- A sign keeps the shape, and names the group around it. -/
theorem State.Shaped.conjoin (hp : p.Gives test) {name : String}
    (hname : name ∈ [andName, orName]) {s s' : State} {position : Nat}
    (hs : s.Shaped test) (h : p.conjoin name position s = .ok s') : s'.Shaped test := by
  have hnamed : State.Shaped test { s with frame := { s.frame with name := some name } } := by
    refine ⟨⟨fun w hw => ?_, hs.frame.args⟩, hs.outer, hs.slot, ?_⟩
    · cases hw
      rcases List.mem_pair.mp hname with rfl | rfl <;> decide
    · -- The name given here is that of the bottom if there is nothing around, else no matter.
      have hroot := hs.root
      cases houter : s.outer with
      | nil => simpa [houter, bottomName] using hname
      | cons f outer => simpa [houter, bottomName] using hroot
  unfold Parser.conjoin at h
  split_ifs at h
  dsimp only at h
  split at h
  · exact hnamed.flush hp h
  · obtain rfl := Except.ok.inj h
    exact hnamed

/-- One token keeps the invariant. -/
theorem State.Shaped.step (hp : p.Gives test) {s s' : State} {l : Lexeme} (hs : s.Shaped test)
    (hl : ∀ w, l.token = .word w → Text.isWord w) (h : p.step s l = .ok s') : s'.Shaped test := by
  unfold Parser.step at h
  split at h
  · next text htoken =>
    cases h
    refine ⟨hs.frame, hs.outer, fun w hw => ?_, hs.root⟩
    obtain rfl := Slot.word.inj hw
    exact hl text htoken
  · cases h
    exact hs.openTerm l.start
  · exact hs.closeTerm hp h
  · exact hs.separate hp h
  · exact hs.conjoin hp (by simp) h
  · exact hs.conjoin hp (by simp) h
  · cases h
    exact hs

/-- **A run keeps the shape**, by that of each step. -/
theorem State.Shaped.run (hp : p.Gives test) {ls : List Lexeme} {s s' : State}
    (hs : s.Shaped test) (hls : ∀ l ∈ ls, ∀ w, l.token = .word w → Text.isWord w)
    (h : ls.foldlM p.step s = .ok s') : s'.Shaped test := by
  induction ls generalizing s with
  | nil => cases h; exact hs
  | cons l ls ih =>
    rw [List.foldlM_cons] at h
    obtain ⟨s₁, hstep, h⟩ := exists_of_bind_eq_ok h
    obtain ⟨hl, hls⟩ := List.forall_mem_cons.mp hls
    exact ih (hs.step hp hl hstep) hls h

theorem State.shaped_start : State.start.Shaped test where
  frame := ⟨by simp [State.start], by simp [State.start]⟩
  outer := by simp [State.start]
  slot := by simp [State.start]
  root := by simp [State.start, bottomName]

/-- What is at the root stays at the root when a single conjunction is opened. -/
theorem all_rootTerm {name : Option String} {args : List Node}
    (hargs : ∀ n ∈ args, n.all isTermName test) (hname : name ∈ [none, some andName, some orName]) :
    (rootTerm name args).toNode.all isTermName test ∧
      ((rootTerm name args).isNamed andName ∨ (rootTerm name args).isNamed orName) := by
  have hroot : name.getD andName ∈ [andName, orName] := by
    rcases List.mem_cons.mp hname with rfl | hname
    · simp
    · rcases List.mem_pair.mp hname with rfl | rfl <;> simp
  have hword : isTermName (some (name.getD andName)) := by
    rcases List.mem_pair.mp hroot with h | h <;> rw [h] <;> decide
  unfold rootTerm
  dsimp only
  split
  · next inner innerArgs =>
    split_ifs
    · -- A single conjunction takes the place of the root.
      have hinner := (Node.all_term.mp (hargs (.term (some inner) innerArgs) (by simp))).2
      have hand : isTermName (some andName) := by decide
      exact ⟨Node.all_term.mpr ⟨hand, hinner⟩, .inl (by simp [Term.isNamed])⟩
    · refine ⟨Node.all_term.mpr ⟨hword, hargs⟩, ?_⟩
      simpa [Term.isNamed] using hroot
  · refine ⟨Node.all_term.mpr ⟨hword, hargs⟩, ?_⟩
    simpa [Term.isNamed] using hroot

/-- **The shape of parsed trees.**  Names are words, values come from the converters, and the
root is a group. -/
theorem shaped_of_parse (hp : p.Gives test) {text : String} {t : Term}
    (h : p.parse text = .ok t) :
    t.toNode.all isTermName test ∧ (t.isNamed andName ∨ t.isNamed orName) := by
  obtain ⟨clauses, haccepted⟩ := parse_eq_ok_iff.mp h
  obtain ⟨s, s', hrun, -, houter, hflush, rfl, -⟩ := run_eq_ok_iff.mp haccepted
  have hs : s.Shaped test :=
    State.shaped_start.run hp (fun l hl w hw => Token.isWord_of_mem_scanFrom hl hw) hrun
  have hs' := hs.flush hp hflush
  have hroot := hs'.root
  rw [outer_of_flush hflush, houter, bottomName] at hroot
  exact all_rootTerm hs'.frame.args hroot

/-- The built-in converters give readable values, and without empty arguments no other values
get into a tree. -/
theorem gives_isReadable (hregistry : p.registry = .builtin)
    (hempty : p.dialect.emptyArguments = false) : p.Gives Value.isReadable where
  word h := by
    rw [hregistry] at h
    exact Registry.isReadable_of_convert h
  gap h := by simp [hempty] at h

end Parser

end ResourceQuery
