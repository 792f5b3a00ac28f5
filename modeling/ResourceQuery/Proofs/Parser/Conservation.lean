import ResourceQuery.Proofs.Parser.Grammar

/-!
# No word is lost

A word of query text names a term or denotes a value.  The tree of a text has these values for its
leaves and these names for its terms, each once and in the order of the text; only the names of
groups, which signs give as well as words, are not counted.

Words wait in the slot, become arguments at five kinds of tokens, and move with the terms they are
in from one frame to another.  All of this is one conservation law: what can be read off the terms
under construction, followed by what can be read off the waiting word and the tokens to come, is
the same before and after each token.  It is proved once for every way of reading, and the two
parts of the result are two ways of reading.

## Main definitions

* `Node.collect`, `Token.collectWords`: what names and values give, in order
* `Node.leaves`, `Node.names`: the values and the names of a tree
* `Token.valueWords`, `Token.nameWords`: the words of both kinds

## Main results

* `Parser.State.collect_step`: the conservation law for one token
* `Parser.collect_of_parse`: what is read off a tree is what is read off its text
* `Parser.words_of_parse`: the leaves and the names of a parsed tree
-/

namespace ResourceQuery

namespace Node

variable {α β : Type} {name : String → List α} {value : Value → List α}

mutual

/-- What the names and the values of a tree give, in pre-order. -/
def collect (name : String → List α) (value : Value → List α) : Node → List α
  | .term n args => n.elim [] name ++ collectIn name value args
  | .list items => collectIn name value items
  | .value v => value v

/-- What the names and the values of some trees give. -/
def collectIn (name : String → List α) (value : Value → List α) : List Node → List α
  | [] => []
  | n :: ns => collect name value n ++ collectIn name value ns

end

/-- The values of a tree, from left to right. -/
def leaves (n : Node) : List Value := n.collect (fun _ => []) fun v => [v]

/-- The names of the terms of a tree, in pre-order. -/
def names (n : Node) : List String := n.collect (fun name => [name]) fun _ => []

theorem collectIn_append (ns ms : List Node) :
    collectIn name value (ns ++ ms) = collectIn name value ns ++ collectIn name value ms := by
  induction ns with
  | nil => rfl
  | cons n ns ih => rw [List.cons_append, collectIn, ih, collectIn, List.append_assoc]

/-- What is collected from a list of nodes is collected node by node. -/
theorem collectIn_eq_flatMap (ns : List Node) :
    collectIn name value ns = ns.flatMap (collect name value) := by
  induction ns with
  | nil => rfl
  | cons n ns ih => rw [collectIn, ih, List.flatMap_cons]

/-- The values of a term are those of its arguments. -/
@[simp] theorem leaves_term (n : Option String) (args : List Node) :
    (term n args).leaves = args.flatMap leaves := by
  rw [leaves, collect, collectIn_eq_flatMap]
  cases n <;> rfl

@[simp] theorem leaves_list (items : List Node) : (list items).leaves = items.flatMap leaves := by
  rw [leaves, collect, collectIn_eq_flatMap]
  rfl

@[simp] theorem leaves_value (v : Value) : (Node.value v).leaves = [v] := rfl

/-- The names of a term are its own, if it has one, and those of its arguments. -/
@[simp] theorem names_term (n : Option String) (args : List Node) :
    (term n args).names = n.toList ++ args.flatMap names := by
  rw [names, collect, collectIn_eq_flatMap]
  cases n <;> rfl

@[simp] theorem names_list (items : List Node) : (list items).names = items.flatMap names := by
  rw [names, collect, collectIn_eq_flatMap]
  rfl

@[simp] theorem names_value (v : Value) : (Node.value v).names = [] := rfl

/-- What is true of a tree is true of the values in it. -/
theorem of_mem_leaves {test : Option String → Bool} {check : Value → Bool} {n : Node}
    (h : n.all test check) {v : Value} (hv : v ∈ n.leaves) : check v := by
  induction n with
  | term m args ih =>
    obtain ⟨k, hk, hv⟩ := List.mem_flatMap.mp (leaves_term m args ▸ hv)
    exact ih k hk ((all_term.mp h).2 k hk) hv
  | list items ih =>
    obtain ⟨k, hk, hv⟩ := List.mem_flatMap.mp (leaves_list items ▸ hv)
    exact ih k hk (all_list.mp h k hk) hv
  | value u =>
    obtain rfl := List.mem_singleton.mp hv
    exact all_value.mp h

theorem of_mem_names {test : Option String → Bool} {check : Value → Bool} {n : Node}
    (h : n.all test check) {m : String} (hm : m ∈ n.names) : test (some m) := by
  induction n with
  | term name args ih =>
    obtain ⟨hname, hargs⟩ := all_term.mp h
    rw [names_term] at hm
    rcases List.mem_append.mp hm with hm | hm
    · rwa [Option.mem_toList.mp hm] at hname
    · obtain ⟨k, hk, hm⟩ := List.mem_flatMap.mp hm
      exact ih k hk (hargs k hk) hm
  | list items ih =>
    obtain ⟨k, hk, hm⟩ := List.mem_flatMap.mp (names_list items ▸ hm)
    exact ih k hk (all_list.mp h k hk) hm
  | value v => cases hm

/-- What is done to lists part by part can be done to what the parts of a tree give. -/
theorem map_collect {φ : List α → List β} (hnil : φ [] = [])
    (happend : ∀ as bs, φ (as ++ bs) = φ as ++ φ bs) (n : Node) :
    φ (n.collect name value) = n.collect (φ ∘ name) (φ ∘ value) := by
  have hmembers : ∀ ns : List Node,
      (∀ n ∈ ns, φ (n.collect name value) = n.collect (φ ∘ name) (φ ∘ value)) →
        φ (collectIn name value ns) = collectIn (φ ∘ name) (φ ∘ value) ns := by
    intro ns hns
    induction ns with
    | nil => exact hnil
    | cons n ns ih =>
      obtain ⟨hn, hns⟩ := List.forall_mem_cons.mp hns
      rw [collectIn, happend, hn, ih hns, collectIn]
  induction n with
  | term n args ih =>
    rw [collect, happend, hmembers args ih, collect]
    cases n with
    | none => rw [Option.elim_none, hnil]; rfl
    | some n => rfl
  | list items ih => exact hmembers items ih
  | value v => rfl

end Node

namespace Token

variable {α β : Type} {name value : String → List α}

/-- What the words among some tokens give, in order: those with a `(` after them as names, all
others as values. -/
def collectWords (name value : String → List α) : List Token → List α
  | [] => []
  | t :: ts =>
    match t with
    | .word w =>
      (if ts.head? = some .opening then name w else value w) ++ collectWords name value ts
    | _ => collectWords name value ts

/-- The words that stand for values. -/
def valueWords (ts : List Token) : List String := collectWords (fun _ => []) (fun w => [w]) ts

/-- The words that name terms. -/
def nameWords (ts : List Token) : List String := collectWords (fun w => [w]) (fun _ => []) ts

/-- A word stands for a value among some tokens: no `(` follows it. -/
def HasValue (ts : List Token) (w : String) : Prop :=
  ∃ us vs, ts = us ++ word w :: vs ∧ vs.head? ≠ some opening

theorem hasValue_of_mem_valueWords {ts : List Token} {w : String} (h : w ∈ valueWords ts) :
    HasValue ts w := by
  induction ts with
  | nil => cases h
  | cons t ts ih =>
    have htail : w ∈ valueWords ts → HasValue (t :: ts) w := by
      intro hw
      obtain ⟨us, vs, rfl, hvs⟩ := ih hw
      exact ⟨t :: us, vs, rfl, hvs⟩
    unfold valueWords collectWords at h
    split at h
    · next v =>
      rcases List.mem_append.mp h with h | h
      · split_ifs at h with hopening
        · cases h
        · obtain rfl := List.mem_singleton.mp h
          exact ⟨[], ts, rfl, hopening⟩
      · exact htail h
    · exact htail h

theorem map_collectWords {φ : List α → List β} (hnil : φ [] = [])
    (happend : ∀ as bs, φ (as ++ bs) = φ as ++ φ bs) (ts : List Token) :
    φ (collectWords name value ts) = collectWords (φ ∘ name) (φ ∘ value) ts := by
  induction ts with
  | nil => exact hnil
  | cons t ts ih =>
    unfold collectWords
    split
    · rw [happend, ih, apply_ite φ]
      rfl
    · exact ih

end Token

namespace Parser

open Token

variable {p : Parser} {α : Type} {name : String → List α} {value : Value → List α}
  {word : String → List α}

/-- What a term under construction gives. -/
def Frame.collect (name : String → List α) (value : Value → List α) (f : Frame) : List α :=
  f.name.elim [] name ++ Node.collectIn name value f.args.toList

/-- What the terms under construction give, the outermost first. -/
def State.collect (name : String → List α) (value : Value → List α) (s : State) : List α :=
  s.outer.reverse.flatMap (Frame.collect name value) ++ s.frame.collect name value

/-- The word that waits. -/
def Slot.pending : Slot → List Token
  | .word w => [.word w]
  | _ => []

theorem Frame.collect_push (f : Frame) (n : Node) :
    (f.push n).collect name value = f.collect name value ++ n.collect name value := by
  simp [collect, push, Node.collectIn_append, Node.collectIn]

/-- The node of a term has what was collected in it. -/
theorem Frame.collect_toNode (f : Frame) :
    f.toNode.collect name value = f.collect name value := by
  unfold toNode collect
  cases f.name <;> rfl

/-- A way of reading words that agrees with a way of reading trees: a value gives what its word
gives, and the names of groups give nothing. -/
structure Agrees (p : Parser) (name : String → List α) (value : Value → List α)
    (word : String → List α) : Prop where
  value : ∀ {w v}, p.registry.convert p.dialect.defaultConverter w = .ok v → value v = word w
  andName : name andName = []
  orName : name orName = []

theorem Agrees.convert (h : p.Agrees name value word) {w : String} {n : Node}
    (hn : p.convert w = .ok n) : n.collect name value = word w := by
  obtain ⟨v, hv, rfl⟩ := exists_of_map_eq_ok hn
  exact h.value hv

theorem collectWords_cons {t : Token} (ht : ¬ t.IsWord) (ts : List Token) :
    collectWords name word (t :: ts) = collectWords name word ts := by
  cases t with
  | word w => exact absurd ⟨w, rfl⟩ ht
  | _ => rfl

/-- A waiting word is a value, if anything but a `(` comes next. -/
theorem collectWords_pending {ts : List Token} (h : ts.head? ≠ some .opening) (slot : Slot) :
    collectWords name word (slot.pending ++ ts) =
      collectWords name word slot.pending ++ collectWords name word ts := by
  cases slot with
  | word w => simp [Slot.pending, collectWords, h]
  | vacant => rfl
  | separated => rfl

theorem Slot.IsFree.pending {slot : Slot} (h : slot.IsFree) : slot.pending = [] := by
  cases slot with
  | word w => exact absurd rfl (h w)
  | vacant => rfl
  | separated => rfl

/-- From one state to another a waiting word was taken as a value, and nothing else. -/
structure State.Takes (name : String → List α) (value : Value → List α) (word : String → List α)
    (s s' : State) : Prop where
  collect : s'.collect name value = s.collect name value ++ collectWords name word s.slot.pending
  free : s'.slot.IsFree

namespace State.Takes

variable {s s' : State} {position : Nat}

/-- A step that collects nothing and leaves the slot free takes no word. -/
theorem of_isFree (hslot : s.slot.IsFree) (hcollect : s'.collect name value = s.collect name value)
    (hslot' : s'.slot.IsFree) : Takes name value word s s' := by
  refine ⟨?_, hslot'⟩
  rw [hcollect, hslot.pending, collectWords, List.append_nil]

/-- A waiting word becomes an argument. -/
theorem push (hp : p.Agrees name value word) {w : String} (hw : s.slot = .word w) {n : Node}
    (hn : p.convert w = .ok n) {slot : Slot} (hslot : slot.IsFree) :
    Takes name value word s { s with frame := s.frame.push n, slot := slot } := by
  refine ⟨?_, hslot⟩
  simp [State.collect, Frame.collect_push, hp.convert hn, hw, Slot.pending, collectWords]

theorem flush (hp : p.Agrees name value word) (h : p.flush s = .ok s') :
    Takes name value word s s' := by
  unfold Parser.flush at h
  split at h
  · next w hw =>
    obtain ⟨n, hn, h⟩ := exists_of_bind_eq_ok h
    cases h
    exact push hp hw hn Slot.isFree_vacant
  · next hslot =>
    cases h
    exact of_isFree hslot rfl Slot.isFree_vacant

/-- Closing a term takes the last word in it.  The finished term goes behind the arguments of its
parent, which stood before it already. -/
theorem closeTerm (hp : p.Agrees name value word) (h : p.closeTerm position s = .ok s') :
    Takes name value word s s' := by
  obtain ⟨s₁, hflush, h⟩ := exists_of_bind_eq_ok h
  have htakes := flush hp hflush
  split at h
  · cases h
  · next parent outer houter =>
    cases h
    refine ⟨?_, htakes.free⟩
    rw [← htakes.collect]
    simp [State.collect, houter, Frame.collect_push, Frame.collect_toNode]

theorem separate (hp : p.Agrees name value word) (hempty : p.dialect.emptyArguments = false)
    (h : p.separate position s = .ok s') : Takes name value word s s' := by
  unfold Parser.separate at h
  split at h
  · next hslot =>
    cases h
    exact of_isFree (hslot ▸ Slot.isFree_vacant) rfl Slot.isFree_separated
  · -- A gap would add a value that no word stands for.
    simp [hempty, throw, throwThe, MonadExceptOf.throw] at h
  · next w hw =>
    obtain ⟨n, hn, h⟩ := exists_of_bind_eq_ok h
    cases h
    exact push hp hw hn Slot.isFree_separated

/-- A sign takes the word before it.  Naming the group changes nothing: the name was the same, or
there was none. -/
theorem conjoin (hp : p.Agrees name value word) {group : String} (hgroup : name group = [])
    (h : p.conjoin group position s = .ok s') : Takes name value word s s' := by
  unfold Parser.conjoin at h
  split_ifs at h with hmixed
  have hnamed : State.collect name value { s with frame := { s.frame with name := some group } } =
      s.collect name value := by
    have hname : s.frame.name.elim [] name = [] := by
      cases hn : s.frame.name with
      | none => rfl
      | some n =>
        obtain rfl : n = group := by simpa [hn] using hmixed
        exact hgroup
    simp [State.collect, Frame.collect, hname, hgroup]
  dsimp only at h
  split at h
  · have htakes := flush hp h
    refine ⟨?_, htakes.free⟩
    rw [htakes.collect, hnamed]
  · next hslot =>
    cases h
    exact of_isFree hslot hnamed hslot

/-- A word that was taken before a token other than `(` was a value. -/
theorem conserves (h : Takes name value word s s') {t : Token} (hopening : t ≠ .opening)
    (hword : ¬ t.IsWord) (ts : List Token) :
    s.collect name value ++ collectWords name word (s.slot.pending ++ t :: ts) =
      s'.collect name value ++ collectWords name word (s'.slot.pending ++ ts) := by
  rw [collectWords_pending (by simpa using hopening), collectWords_cons hword, ← List.append_assoc,
    ← h.collect, h.free.pending, List.nil_append]

end State.Takes

/-- A `(` turns a waiting word into a name. -/
theorem State.collect_openTerm (s : State) (position : Nat) (ts : List Token) :
    s.collect name value ++ collectWords name word (s.slot.pending ++ .opening :: ts) =
      (p.openTerm position s).collect name value ++ collectWords name word ts := by
  -- Only a waiting word makes a difference: it goes from the tokens to the name of the new frame.
  unfold openTerm State.collect Slot.pending
  cases s.slot <;> simp [Frame.collect, Node.collectIn, collectWords]

/-- **The conservation law for one token.**  What is read off the terms under construction, and
then off the waiting word and the tokens to come, stays the same. -/
theorem State.collect_step (hp : p.Agrees name value word)
    (hempty : p.dialect.emptyArguments = false) {s s' : State} {t : Token} {position : Nat}
    (hfinish : t ≠ .finish) (hfree : t.IsWord → s.slot.IsFree)
    (h : p.step s ⟨t, position⟩ = .ok s') (ts : List Token) :
    s.collect name value ++ collectWords name word (s.slot.pending ++ t :: ts) =
      s'.collect name value ++ collectWords name word (s'.slot.pending ++ ts) := by
  cases t with
  | word w =>
    cases h
    rw [(hfree ⟨w, rfl⟩).pending]
    rfl
  | opening =>
    cases h
    exact State.collect_openTerm s position ts
  | closing => exact (Takes.closeTerm hp h).conserves (by simp) (by simp [IsWord]) ts
  | comma => exact (Takes.separate hp hempty h).conserves (by simp) (by simp [IsWord]) ts
  | ampersand => exact (Takes.conjoin hp hp.andName h).conserves (by simp) (by simp [IsWord]) ts
  | pipe => exact (Takes.conjoin hp hp.orName h).conserves (by simp) (by simp [IsWord]) ts
  | finish => exact absurd rfl hfinish

/-- A run: what is read off the tokens is in the terms under construction or waits.  The induction
takes one token more at a time from the front, so what comes after it is open. -/
theorem Runs.collect (hp : p.Agrees name value word) (hempty : p.dialect.emptyArguments = false)
    {ts : List Token} (hfinish : .finish ∉ ts) (us : List Token)
    (hapart : (ts ++ us).IsChain Apart) {s : State} (h : p.Runs 0 .start ts s) :
    collectWords name word (ts ++ us) =
      s.collect name value ++ collectWords name word (s.slot.pending ++ us) := by
  induction ts using List.reverseRecOn generalizing us s with
  | nil =>
    cases h
    rfl
  | append_singleton ts t ih =>
    rw [List.mem_append, not_or, List.mem_singleton] at hfinish
    obtain ⟨s₁, hs₁, hstep⟩ := runs_concat_iff.mp h
    have hfree : t.IsWord → s₁.slot.IsFree := by
      intro ht w hw
      have hlast := ((hs₁.after hfinish.1).slot.word w).mp hw
      exact not_isWord_of_apart hapart.left_of_append hlast ht
    rw [List.append_assoc, List.singleton_append] at hapart ⊢
    rw [ih hfinish.1 _ hapart hs₁]
    exact State.collect_step hp hempty (Ne.symm hfinish.2) hfree hstep us

/-- The root gives what the outermost term gave, also if its only argument takes its place. -/
theorem collect_rootTerm (hp : p.Agrees name value word) (f : Frame) :
    (rootTerm f.name f.args.toList).toNode.collect name value = f.collect name value := by
  have hname : name (f.name.getD andName) = f.name.elim [] name := by
    cases f.name with
    | none => exact hp.andName
    | some n => rfl
  unfold rootTerm Frame.collect
  dsimp only
  split
  · next inner innerArgs hargs =>
    rw [hargs, ← hname]
    split_ifs with hcollapse
    · obtain ⟨houter, rfl⟩ := hcollapse
      simp [Term.toNode, Node.collect, Node.collectIn, houter, hp.andName]
    · rfl
  · rw [← hname]
    rfl

/-- **The conservation law for a parse.**  What is read off a tree is what is read off the words of
its text. -/
theorem collect_of_parse (hp : p.Agrees name value word) (hempty : p.dialect.emptyArguments = false)
    {text : String} {t : Term} (h : p.parse text = .ok t) {ts : List Token}
    (hcuts : Cuts ts (p.dialect.expand text).toList) :
    t.toNode.collect name value = collectWords name word ts := by
  obtain ⟨us, s, s', hus, hruns, houter, hflush, rfl⟩ := parse_eq_ok_iff_runs.mp h
  obtain rfl := hcuts.unique hus
  -- At the end only the bottom frame is left, and the last word is taken.
  have hcollect : collectWords name word ts = s'.collect name value := by
    have htakes := State.Takes.flush hp hflush
    have hrun := hruns.collect hp hempty hcuts.open_ended [] (by simpa using hcuts.apart)
    rw [List.append_nil, List.append_nil] at hrun
    rw [hrun, htakes.collect]
  rw [collect_rootTerm hp, hcollect]
  simp [State.collect, outer_of_flush hflush, houter]

/-- Every word that stands for a value in an accepted text has a value. -/
theorem converts_of_hasValue {text : String} {t : Term} (h : p.parse text = .ok t)
    {ts : List Token} (hcuts : Cuts ts (p.dialect.expand text).toList) {w : String}
    (hw : HasValue ts w) : p.Converts w := by
  obtain ⟨us, s, s', hus, hruns, houter, hflush, -⟩ := parse_eq_ok_iff_runs.mp h
  obtain rfl := hcuts.unique hus
  have hproceeds := (runs_isOk_iff hcuts.open_ended hcuts.apart).mp ⟨s, hruns⟩
  have hends := (ends_iff (hruns.after hcuts.open_ended)).mpr ⟨houter, s', hflush⟩
  obtain ⟨us, vs, rfl, hvs⟩ := hw
  exact (grammatical_iff.mpr ⟨hproceeds, hends⟩).converts us w vs rfl hvs

/-- Every value of a parsed tree is that of a word in its text. -/
theorem exists_word_of_mem_leaves (hempty : p.dialect.emptyArguments = false) {text : String}
    {t : Term} (h : p.parse text = .ok t) {ts : List Token}
    (hcuts : Cuts ts (p.dialect.expand text).toList) {v : Value} (hv : v ∈ t.toNode.leaves) :
    ∃ w, HasValue ts w ∧ p.registry.convert p.dialect.defaultConverter w = .ok v := by
  let value : String → List Value := fun w =>
    (p.registry.convert p.dialect.defaultConverter w).toOption.toList
  have hagrees : p.Agrees (fun _ => []) (fun v => [v]) value := by
    refine ⟨fun hconvert => ?_, rfl, rfl⟩
    simp [value, hconvert, Except.toOption]
  have hvalues : t.toNode.leaves = (valueWords ts).flatMap value := by
    rw [valueWords, map_collectWords List.flatMap_nil (fun _ _ => List.flatMap_append),
      Node.leaves, collect_of_parse hagrees hempty h hcuts]
    simp [Function.comp_def]
  rw [hvalues] at hv
  obtain ⟨w, hw, hv⟩ := List.mem_flatMap.mp hv
  refine ⟨w, hasValue_of_mem_valueWords hw, ?_⟩
  cases hconvert : p.registry.convert p.dialect.defaultConverter w with
  | error e => simp [value, hconvert, Except.toOption] at hv
  | ok u => simp_all [value, Except.toOption]

/-- **No word is lost, repeated or moved.**  A text that is accepted is cut into tokens.  The
leaves of its tree are the values of its value words, the names in its tree are its name words, up
to those of groups, and the root is a group. -/
theorem words_of_parse (p : Parser) (hempty : p.dialect.emptyArguments = false) (text : String)
    (t : Term) (h : p.parse text = .ok t) :
    ∃ ts, Cuts ts (p.dialect.expand text).toList ∧
      (valueWords ts).map (p.registry.convert p.dialect.defaultConverter) =
        t.toNode.leaves.map .ok ∧
      t.toNode.names.filter (· ∉ [andName, orName]) =
        (nameWords ts).filter (· ∉ [andName, orName]) ∧
      (t.isNamed andName ∨ t.isNamed orName) := by
  obtain ⟨ts, -, -, hcuts, -⟩ := parse_eq_ok_iff_runs.mp h
  have hgives : p.Gives fun _ => true := ⟨fun _ => rfl, fun _ => rfl⟩
  refine ⟨ts, hcuts, ?_, ?_, (shaped_of_parse hgives h).2⟩
  · -- Names give nothing, a value gives itself, and a word what it is converted to.
    rw [valueWords, map_collectWords List.map_nil (fun _ _ => List.map_append), Node.leaves,
      Node.map_collect List.map_nil (fun _ _ => List.map_append)]
    refine (collect_of_parse ⟨?_, rfl, rfl⟩ hempty h hcuts).symm
    intro w v hv
    simp [hv]
  · -- Values give nothing, and a name gives itself unless a sign may have given it.
    rw [nameWords, map_collectWords List.filter_nil (fun _ _ => List.filter_append ..), Node.names,
      Node.map_collect List.filter_nil (fun _ _ => List.filter_append ..)]
    exact collect_of_parse ⟨fun _ => rfl, by simp, by simp⟩ hempty h hcuts

/-- A single conjunction around a term and a disjunction, with commas at both ends of a list. -/
theorem words_of_parse_nested :
    ∃ t, ({} : Parser).parse "(f(1,(,a,))&(b|and(g())))" = .ok t ∧
      ∃ ts, Cuts ts (({} : Parser).dialect.expand "(f(1,(,a,))&(b|and(g())))").toList ∧
        (valueWords ts).map (Registry.builtin.convert ({} : Dialect).defaultConverter) =
          t.toNode.leaves.map .ok ∧
        t.toNode.names.filter (· ∉ [andName, orName]) =
          (nameWords ts).filter (· ∉ [andName, orName]) ∧
        (t.isNamed andName ∨ t.isNamed orName) := by
  have hparse : ({} : Parser).parse "(f(1,(,a,))&(b|and(g())))" =
      .ok (Term.and [
        .term (some "f") [.value (.number (.int 1)), .list [.value (.string "a")]],
        .term (some "or") [.value (.string "b"), .term (some "and") [.term (some "g") []]]]) := by
    with_unfolding_all rfl
  exact ⟨_, hparse, words_of_parse _ rfl _ _ hparse⟩

end Parser

end ResourceQuery
