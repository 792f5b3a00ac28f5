import ResourceQuery.Proofs.Parser.Grammar

/-!
# Clauses are last occurrences

Clauses are collected while the tree is built: one is recorded when its term opens, an earlier one
of the same name is dropped at that moment, even if it is still open, and the arguments are filled
in when the term closes.  What is left at the end can be read off the tree: of the terms with the
name of a clause, in pre-order, the last one of each name.

A record is found again by the position where its term opened, and the tree keeps no positions.  So
the invariant goes through a trail, the list of all records ever made, none of them dropped.  Its
parts belong to the terms on the stack, and the positions in it grow, so that filling in a record
changes no other.

## Main definitions

* `latestBy`: of the entries with the same key the last one
* `Node.terms`: the terms of a tree in pre-order
* `Term.lastClauses`: the clauses of a tree
* `Parser.Trail`, `Parser.State.Tracked`: the invariant

## Main results

* `Parser.State.Tracked.step`: one token keeps the invariant
* `Parser.run_eq_of_parse`: the clauses that are collected are those of the tree
* `Parser.run_withoutClauses`: collecting clauses changes nothing else
* `Parser.clauses_last_occurrences`: the three ways to parse agree
-/

namespace ResourceQuery

/-! ## The last of each key -/

section Latest

variable {α β : Type} {key : α → String}

/-- Keep, of all entries with the same key, only the last one. -/
def latestBy (key : α → String) : List α → List α
  | [] => []
  | a :: as => if as.any (key · == key a) then latestBy key as else a :: latestBy key as

/-- A new entry takes the place of an earlier one with its key, and goes to the end. -/
theorem latestBy_concat (as : List α) (a : α) :
    latestBy key (as ++ [a]) = (latestBy key as).filter (key · != key a) ++ [a] := by
  induction as with
  | nil => rfl
  | cons b bs ih =>
    rw [List.cons_append, latestBy, latestBy, ih, List.any_append]
    by_cases hlater : bs.any (key · == key b)
    · simp [hlater]
    · by_cases hkey : key a = key b
      · simp [hlater, hkey]
      · simp [hlater, hkey, Ne.symm hkey]

/-- Taking the last of each key commutes with maps that keep keys. -/
theorem map_latestBy {f : α → β} {key' : β → String} (h : ∀ a, key' (f a) = key a)
    (as : List α) : (latestBy key as).map f = latestBy key' (as.map f) := by
  induction as with
  | nil => rfl
  | cons a as ih =>
    have hany : (as.map f).any (key' · == key' (f a)) = as.any (key · == key a) := by
      simp [List.any_map, Function.comp_def, h]
    rw [List.map_cons, latestBy, latestBy, hany]
    split_ifs
    · exact ih
    · rw [List.map_cons, ih]

theorem mem_of_mem_latestBy {as : List α} {a : α} (h : a ∈ latestBy key as) : a ∈ as := by
  induction as with
  | nil => cases h
  | cons b bs ih =>
    rw [latestBy] at h
    split_ifs at h
    · exact List.mem_cons_of_mem b (ih h)
    · rcases List.mem_cons.mp h with rfl | h
      · exact List.mem_cons_self
      · exact List.mem_cons_of_mem b (ih h)

/-- Entries of other keys do not matter. -/
theorem filter_latestBy (test : String → Bool) (as : List α) :
    (latestBy key as).filter (fun a => test (key a)) =
      latestBy key (as.filter fun a => test (key a)) := by
  induction as with
  | nil => rfl
  | cons a as ih =>
    rw [latestBy, List.filter_cons]
    by_cases ha : test (key a)
    · have hany : (as.filter fun a => test (key a)).any (key · == key a) =
          as.any (key · == key a) := by
        rw [List.any_filter]
        congr 1
        funext b
        by_cases hb : key b = key a <;> simp [hb, ha]
      rw [if_pos ha, latestBy, hany]
      split_ifs
      · exact ih
      · rw [List.filter_cons, if_pos ha, ih]
    · rw [if_neg ha]
      split_ifs
      · exact ih
      · rw [List.filter_cons, if_neg ha, ih]

/-- Of distinct keys each is the last one. -/
theorem latestBy_of_nodup {as : List α} (h : (as.map key).Nodup) : latestBy key as = as := by
  induction as with
  | nil => rfl
  | cons a as ih =>
    obtain ⟨hnotMem, hnodup⟩ := List.nodup_cons.mp h
    rw [latestBy, if_neg, ih hnodup]
    simp only [List.any_eq_true, beq_iff_eq, not_exists, not_and]
    exact fun b hb heq => hnotMem (heq ▸ List.mem_map_of_mem hb)

end Latest

/-! ## Clauses in a tree -/

mutual

/-- The terms of a tree in pre-order, each with its name and its arguments. -/
def Node.terms : Node → List Clause
  | .term (some name) args => ⟨name, args⟩ :: Node.termsIn args
  | .term none args => Node.termsIn args
  | .list items => Node.termsIn items
  | .value _ => []

/-- The terms of some trees in pre-order. -/
def Node.termsIn : List Node → List Clause
  | [] => []
  | n :: ns => Node.terms n ++ Node.termsIn ns

end

/-- The terms of some trees that have one of the names. -/
def Node.clausesIn (names : List String) (ns : List Node) : List Clause :=
  (Node.termsIn ns).filter fun c => names.contains c.name

/-- The clauses of a tree: of its terms that have one of the names, in pre-order, the last one of
each name. -/
def Term.lastClauses (names : List String) (t : Term) : List Clause :=
  latestBy Clause.name (Node.clausesIn names [t.toNode])

namespace Node

variable {names : List String}

theorem termsIn_append (ns ms : List Node) : termsIn (ns ++ ms) = termsIn ns ++ termsIn ms := by
  induction ns with
  | nil => rfl
  | cons n ns ih => rw [List.cons_append, termsIn, termsIn, ih, List.append_assoc]

@[simp] theorem clausesIn_nil : clausesIn names [] = [] := rfl

/-- The clauses in appended lists are those in one and then those in the other. -/
theorem clausesIn_append (ns ms : List Node) :
    clausesIn names (ns ++ ms) = clausesIn names ns ++ clausesIn names ms := by
  rw [clausesIn, termsIn_append, List.filter_append]
  rfl

theorem clausesIn_cons (n : Node) (ns : List Node) :
    clausesIn names (n :: ns) = clausesIn names [n] ++ clausesIn names ns :=
  clausesIn_append [n] ns

@[simp] theorem clausesIn_value (v : Value) : clausesIn names [.value v] = [] := rfl

@[simp] theorem clausesIn_list (items : List Node) :
    clausesIn names [.list items] = clausesIn names items := by
  simp [clausesIn, termsIn, terms]

/-- A term that is a clause comes before those inside of it. -/
theorem clausesIn_term (name : String) (args : List Node) :
    clausesIn names [.term (some name) args] =
      if names.contains name then ⟨name, args⟩ :: clausesIn names args
      else clausesIn names args := by
  simp [clausesIn, termsIn, terms, List.filter_cons]

/-- A term that is no clause only has those inside of it. -/
theorem clausesIn_term_of_notMem {name : String} (h : name ∉ names) (args : List Node) :
    clausesIn names [.term (some name) args] = clausesIn names args := by
  rw [clausesIn_term, if_neg (by simpa using h)]

end Node

namespace Parser

variable {p : Parser} {names : List String}

/-! ## The trail -/

/-- The record of a term when it opens. -/
def Frame.record (names : List String) (f : Frame) : List Capture :=
  match f.name with
  | some name => if names.contains name then [⟨f.openedAt, ⟨name, []⟩⟩] else []
  | none => []

/-- All records made for a term under construction and for the terms around it, the innermost of
them first.  A term records itself first and then what is in its arguments. -/
inductive Trail (names : List String) : Frame → List Frame → List Capture → Prop
  | root {f : Frame} {trail : List Capture} (name : ∀ m, f.name = some m → m ∉ names)
      (args : trail.map Capture.clause = Node.clausesIn names f.args.toList) :
      Trail names f [] trail
  | inner {f parent : Frame} {outer : List Frame} {before after : List Capture}
      (parent_trail : Trail names parent outer before)
      (args : after.map Capture.clause = Node.clausesIn names f.args.toList)
      (earlier : ∀ c ∈ before, c.openedAt < f.openedAt)
      (later : ∀ c ∈ after, f.openedAt < c.openedAt)
      (nested : outer ≠ [] → parent.openedAt < f.openedAt) :
      Trail names f (parent :: outer) (before ++ f.record names ++ after)

/-- The records are the latest ones of a trail, all of them made before a position. -/
structure State.Tracked (names : List String) (position : Nat) (s : State) : Prop where
  trail : ∃ trail, Trail names s.frame s.outer trail ∧
    s.captures = latestBy (·.clause.name) trail ∧ ∀ c ∈ trail, c.openedAt < position
  opened : s.outer ≠ [] → s.frame.openedAt < position

theorem Frame.openedAt_of_mem_record {f : Frame} {c : Capture} (h : c ∈ f.record names) :
    c.openedAt = f.openedAt := by
  unfold record at h
  split at h
  · split_ifs at h
    · rw [List.mem_singleton.mp h]
    · cases h
  · cases h

/-- An argument is added with the records of its terms. -/
theorem Trail.push {f : Frame} {outer : List Frame} {trail : List Capture}
    (h : Trail names f outer trail) {n : Node} {added : List Capture}
    (hn : added.map Capture.clause = Node.clausesIn names [n])
    (hlater : outer ≠ [] → ∀ c ∈ added, f.openedAt < c.openedAt) :
    Trail names (f.push n) outer (trail ++ added) := by
  cases h with
  | root name args =>
    refine .root name ?_
    rw [List.map_append, args, hn, Frame.push, Array.toList_push, Node.clausesIn_append]
  | inner parent_trail args earlier later nested =>
    rw [List.append_assoc]
    refine .inner parent_trail ?_ earlier ?_ nested
    · rw [List.map_append, args, hn, Frame.push, Array.toList_push, Node.clausesIn_append]
    · intro c hc
      rcases List.mem_append.mp hc with hc | hc
      · exact later c hc
      · exact hlater (by simp) c hc

theorem Trail.push_value {f : Frame} {outer : List Frame} {trail : List Capture}
    (h : Trail names f outer trail) (v : Value) : Trail names (f.push (.value v)) outer trail := by
  have hpush := @Trail.push _ f outer trail h (.value v) [] rfl (by simp)
  simpa using hpush

/-- A sign gives a group a name that is no clause, so nothing is recorded. -/
theorem Trail.conjoin {f : Frame} {outer : List Frame} {trail : List Capture}
    (h : Trail names f outer trail) {name : String} (hname : name ∉ names)
    (hf : ∀ m, f.name = some m → m = name) :
    Trail names { f with name := some name } outer trail := by
  have hrecord : Frame.record names { f with name := some name } = f.record names := by
    unfold Frame.record
    cases hm : f.name with
    | none => simpa using hname
    | some m => rw [hf m hm]
  cases h with
  | root name args =>
    refine .root (fun m hm => ?_) args
    obtain rfl := Option.some.inj hm
    exact hname
  | inner parent_trail args earlier later nested =>
    rw [← hrecord]
    exact .inner parent_trail args earlier later nested

/-- A term is opened after the one around it. -/
theorem Trail.nested {f parent : Frame} {outer : List Frame} {trail : List Capture}
    (h : Trail names f (parent :: outer) trail) (houter : outer ≠ []) :
    parent.openedAt < f.openedAt := by
  cases h with
  | inner parent_trail args earlier later nested => exact nested houter

/-- Recording a term that opens drops an earlier record of its name. -/
theorem capture_latestBy (f : Frame) (trail : List Capture) :
    p.capture f.name f.openedAt (latestBy (·.clause.name) trail) =
      latestBy (·.clause.name) (trail ++ f.record p.dialect.clauseNames) := by
  unfold capture Frame.record
  cases f.name with
  | none => rw [List.append_nil]
  | some name =>
    dsimp only
    split_ifs
    · rw [latestBy_concat]
    · rw [List.append_nil]

/-! ## Filling in -/

theorem settle_append (position : Nat) (args : List Node) (cs ds : List Capture) :
    settle position args (cs ++ ds) = settle position args cs ++ settle position args ds :=
  List.map_append

/-- Records that were made elsewhere stay as they are. -/
theorem settle_of_ne {position : Nat} {cs : List Capture} (h : ∀ c ∈ cs, c.openedAt ≠ position)
    (args : List Node) : settle position args cs = cs := by
  have hself : ∀ c ∈ cs, (if c.openedAt = position then
      { c with clause := { c.clause with args := args } } else c) = id c := fun c hc =>
    if_neg (h c hc)
  rw [settle, List.map_congr_left hself, List.map_id]

/-- Settling the clauses of a term keeps which of them are the last ones. -/
theorem settle_latestBy (position : Nat) (args : List Node) (cs : List Capture) :
    settle position args (latestBy (·.clause.name) cs) =
      latestBy (·.clause.name) (settle position args cs) := by
  refine map_latestBy (fun c => ?_) cs
  split_ifs <;> rfl

/-- The record of a finished term, with the records of its arguments. -/
theorem clausesIn_toNode (f : Frame) :
    Node.clausesIn names [f.toNode] =
      (settle f.openedAt f.args.toList (f.record names)).map Capture.clause ++
        Node.clausesIn names f.args.toList := by
  unfold Frame.toNode Frame.record
  cases f.name with
  | none => simp [settle]
  | some name =>
    rw [Node.clausesIn_term]
    dsimp only
    split_ifs <;> simp [settle]

/-- A finished term is filled in and becomes an argument of the one around it. -/
theorem Trail.close {f parent : Frame} {outer : List Frame} {trail : List Capture}
    (h : Trail names f (parent :: outer) trail) :
    Trail names (parent.push f.toNode) outer (settle f.openedAt f.args.toList trail) := by
  cases h with
  | @inner _ _ _ before after parent_trail args earlier later nested =>
    rw [settle_append, settle_append, settle_of_ne fun c hc => (earlier c hc).ne,
      settle_of_ne fun c hc => (later c hc).ne', List.append_assoc]
    refine parent_trail.push ?_ fun houter c hc => ?_
    · rw [List.map_append, args, clausesIn_toNode]
    · rcases List.mem_append.mp hc with hc | hc
      · obtain ⟨d, hd, rfl⟩ := List.mem_map.mp hc
        have hopened := Frame.openedAt_of_mem_record hd
        rw [if_pos hopened]
        exact hopened ▸ nested houter
      · exact (nested houter).trans (later c hc)

/-! ## One token -/

namespace State.Tracked

variable {s s' : State} {position : Nat}

theorem mono (h : s.Tracked names position) {position' : Nat} (hle : position ≤ position') :
    s.Tracked names position' := by
  obtain ⟨⟨trail, htrail, hcaptures, hbefore⟩, hopened⟩ := h
  exact ⟨⟨trail, htrail, hcaptures, fun c hc => (hbefore c hc).trans_le hle⟩,
    fun houter => (hopened houter).trans_le hle⟩

/-- What does not touch the records keeps the invariant, as long as the frame fits the trail. -/
theorem update (h : s.Tracked names position) {f : Frame} {slot : Slot}
    (hopened : f.openedAt = s.frame.openedAt)
    (hf : ∀ {trail}, Trail names s.frame s.outer trail → Trail names f s.outer trail) :
    State.Tracked names position { s with frame := f, slot := slot } := by
  obtain ⟨⟨trail, htrail, hcaptures, hbefore⟩, hframe⟩ := h
  exact ⟨⟨trail, hf htrail, hcaptures, hbefore⟩, fun houter => hopened ▸ hframe houter⟩

/-- A word that is read has no clauses in it. -/
theorem push_word (h : s.Tracked names position) {w : String} {n : Node}
    (hn : p.convert w = .ok n) {slot : Slot} :
    State.Tracked names position { s with frame := s.frame.push n, slot := slot } := by
  obtain ⟨v, -, rfl⟩ := exists_of_map_eq_ok hn
  exact h.update rfl fun htrail => htrail.push_value v

/-- Reading the word that waits keeps track of the clauses. -/
theorem flush (h : s.Tracked names position) (hflush : p.flush s = .ok s') :
    s'.Tracked names position := by
  unfold Parser.flush at hflush
  split at hflush
  · obtain ⟨n, hn, hflush⟩ := exists_of_bind_eq_ok hflush
    cases hflush
    exact h.push_word hn
  · cases hflush
    exact h.update rfl id

theorem separate (h : s.Tracked names position) (hstep : p.separate position s = .ok s') :
    s'.Tracked names position := by
  unfold Parser.separate at hstep
  split at hstep
  · cases hstep
    exact h.update rfl id
  · split_ifs at hstep
    cases hstep
    exact h.update rfl fun htrail => htrail.push_value _
  · obtain ⟨n, hn, hstep⟩ := exists_of_bind_eq_ok hstep
    cases hstep
    exact h.push_word hn

/-- A sign keeps track of the clauses, as no group is one. -/
theorem conjoin (h : s.Tracked names position) {name : String} (hname : name ∉ names)
    (hstep : p.conjoin name position s = .ok s') : s'.Tracked names position := by
  have hf := (exists_of_conjoin hstep).1
  unfold Parser.conjoin at hstep
  split_ifs at hstep
  dsimp only at hstep
  have hnamed :
      State.Tracked names position { s with frame := { s.frame with name := some name } } :=
    h.update rfl fun htrail => htrail.conjoin hname hf
  split at hstep
  · exact hnamed.flush hstep
  · obtain rfl := Except.ok.inj hstep
    exact hnamed

/-- Opening a term keeps track of the clauses: it is recorded if it is one. -/
theorem openTerm (h : s.Tracked p.dialect.clauseNames position) :
    (p.openTerm position s).Tracked p.dialect.clauseNames (position + 1) := by
  obtain ⟨⟨trail, htrail, hcaptures, hbefore⟩, hopened⟩ := h
  refine ⟨⟨trail ++ (p.openTerm position s).frame.record p.dialect.clauseNames, ?_, ?_,
    fun c hc => ?_⟩, fun _ => Nat.lt_succ_self position⟩
  · rw [← List.append_nil (trail ++ _)]
    exact .inner htrail rfl hbefore (by simp) hopened
  · rw [← capture_latestBy, ← hcaptures]
    rfl
  · rcases List.mem_append.mp hc with hc | hc
    · exact (hbefore c hc).trans (Nat.lt_succ_self position)
    · exact (Frame.openedAt_of_mem_record hc).trans_lt (Nat.lt_succ_self position)

/-- Closing a term keeps track of the clauses: those that were captured in it are settled. -/
theorem closeTerm (h : s.Tracked names position) (hstep : p.closeTerm position s = .ok s') :
    s'.Tracked names position := by
  obtain ⟨s₁, hflush, hstep⟩ := exists_of_bind_eq_ok hstep
  obtain ⟨⟨trail, htrail, hcaptures, hbefore⟩, hopened⟩ := h.flush hflush
  split at hstep
  · cases hstep
  · next parent outer houter =>
    cases hstep
    rw [houter] at htrail
    refine ⟨⟨_, htrail.close, by rw [hcaptures, settle_latestBy], fun c hc => ?_⟩, fun hne => ?_⟩
    · obtain ⟨d, hd, rfl⟩ := List.mem_map.mp hc
      split_ifs
      · exact hbefore d hd
      · exact hbefore d hd
    · exact (htrail.nested hne).trans (hopened (by simp [houter]))

/-- **One token keeps the invariant.** -/
theorem step (hand : andName ∉ p.dialect.clauseNames) (hor : orName ∉ p.dialect.clauseNames)
    {t : Token} (h : s.Tracked p.dialect.clauseNames position)
    (hstep : p.step s ⟨t, position⟩ = .ok s') :
    s'.Tracked p.dialect.clauseNames (position + t.chars.length) := by
  have hle : position ≤ position + t.chars.length := Nat.le_add_right _ _
  cases t with
  | word w =>
    cases hstep
    exact (h.update rfl id).mono hle
  | opening =>
    cases hstep
    exact h.openTerm
  | closing => exact (h.closeTerm hstep).mono hle
  | comma => exact (h.separate hstep).mono hle
  | ampersand => exact (h.conjoin hand hstep).mono hle
  | pipe => exact (h.conjoin hor hstep).mono hle
  | finish =>
    cases hstep
    exact h.mono hle

end State.Tracked

theorem State.tracked_start : State.start.Tracked names 0 where
  trail := ⟨[], .root (by simp [State.start]) rfl, rfl, by simp⟩
  opened := by simp [State.start]

/-- A run keeps the invariant. -/
theorem Runs.tracked (hand : andName ∉ p.dialect.clauseNames)
    (hor : orName ∉ p.dialect.clauseNames) {ts : List Token} {s s' : State} {position : Nat}
    (hs : s.Tracked p.dialect.clauseNames position) (h : p.Runs position s ts s') :
    s'.Tracked p.dialect.clauseNames (position + (Token.spelling ts).length) := by
  induction ts generalizing s position with
  | nil =>
    cases h
    exact hs
  | cons t ts ih =>
    rw [Runs, Token.placed, List.foldlM_cons] at h
    obtain ⟨s₁, hstep, h⟩ := exists_of_bind_eq_ok h
    rw [Token.spelling_cons, List.length_append, ← Nat.add_assoc]
    exact ih (hs.step hand hor hstep) h

/-! ## The clauses of a parse -/

/-- The root itself is no clause, and a single conjunction that takes its place neither. -/
theorem clausesIn_rootTerm (hand : andName ∉ names) {name : Option String}
    (hname : ∀ m, name = some m → m ∉ names) (args : List Node) :
    Node.clausesIn names [(rootTerm name args).toNode] = Node.clausesIn names args := by
  have hroot : name.getD andName ∉ names := by
    cases name with
    | none => exact hand
    | some m => exact hname m rfl
  unfold rootTerm
  dsimp only
  split
  · next inner innerArgs =>
    split_ifs with hcollapse
    · obtain ⟨-, rfl⟩ := hcollapse
      rfl
    · rw [Term.toNode, Node.clausesIn_term_of_notMem hroot]
  · rw [Term.toNode, Node.clausesIn_term_of_notMem hroot]

/-- **The clauses of a parse** are those of its tree. -/
theorem run_eq_of_parse (hand : andName ∉ p.dialect.clauseNames)
    (hor : orName ∉ p.dialect.clauseNames) {text : String} {t : Term} (h : p.parse text = .ok t) :
    p.run text = .ok (t, t.lastClauses p.dialect.clauseNames) := by
  obtain ⟨clauses, hrun⟩ := parse_eq_ok_iff.mp h
  obtain ⟨ts, s, s', -, hruns, houter, hflush, hroot, rfl⟩ := run_eq_ok_iff_runs.mp hrun
  obtain ⟨⟨trail, htrail, hcaptures, -⟩, -⟩ :=
    (hruns.tracked hand hor State.tracked_start).flush hflush
  rw [outer_of_flush hflush, houter] at htrail
  cases htrail with
  | root hname hargs =>
    rw [hrun, Term.lastClauses, ← hroot, clausesIn_rootTerm hand hname, ← hargs, hcaptures,
      map_latestBy fun _ => rfl]

/-! ## Without clauses -/

/-- The parser that collects no clauses. -/
def withoutClauses (p : Parser) : Parser :=
  { p with dialect := { p.dialect with clauseNames := [] } }

/-- The state without the clauses collected so far. -/
def State.forget (s : State) : State := { s with captures := [] }

section WithoutClauses

variable {s : State} {position : Nat}

theorem flush_withoutClauses : p.withoutClauses.flush s.forget = (p.flush s).map State.forget := by
  unfold flush
  cases hslot : s.slot with
  | vacant => simp [State.forget, hslot, Except.map, pure, Except.pure]
  | separated => simp [State.forget, hslot, Except.map, pure, Except.pure]
  | word w =>
    simp only [State.forget, hslot]
    change (p.convert w >>= _) = _
    cases p.convert w <;> rfl

theorem separate_withoutClauses :
    p.withoutClauses.separate position s.forget = (p.separate position s).map State.forget := by
  unfold separate
  cases hslot : s.slot with
  | vacant => simp [State.forget, hslot, Except.map, pure, Except.pure]
  | separated =>
    simp only [State.forget, hslot, withoutClauses]
    split_ifs <;> rfl
  | word w =>
    simp only [State.forget, hslot]
    change (p.convert w >>= _) = _
    cases p.convert w <;> rfl

theorem conjoin_withoutClauses (name : String) :
    p.withoutClauses.conjoin name position s.forget =
      (p.conjoin name position s).map State.forget := by
  have hflush := flush_withoutClauses (p := p)
    (s := { s with frame := { s.frame with name := some name } })
  unfold conjoin
  by_cases hmixed : s.frame.name.any (· != name)
  · rw [if_pos hmixed, if_pos (by exact hmixed)]
    rfl
  · rw [if_neg hmixed, if_neg (by exact hmixed)]
    cases hslot : s.slot with
    | vacant => simp [State.forget, hslot, Except.map, pure, Except.pure]
    | separated => simp [State.forget, hslot, Except.map, pure, Except.pure]
    | word w => simpa [State.forget, hslot] using hflush

theorem openTerm_withoutClauses :
    p.withoutClauses.openTerm position s.forget = (p.openTerm position s).forget := by
  unfold openTerm State.forget capture
  cases s.slot <;> rfl

theorem closeTerm_withoutClauses :
    p.withoutClauses.closeTerm position s.forget = (p.closeTerm position s).map State.forget := by
  unfold closeTerm
  rw [flush_withoutClauses]
  cases p.flush s with
  | error e => rfl
  | ok s₁ =>
    simp only [Except.map, bind, Except.bind, State.forget]
    cases s₁.outer <;> rfl

/-- At the end there is the same tree, and no clause. -/
theorem finish_withoutClauses :
    p.withoutClauses.finish s.forget = (p.finish s).map fun r => (r.1, []) := by
  unfold finish
  rw [flush_withoutClauses]
  cases houter : s.outer with
  | cons f outer =>
    simp [State.forget, houter, Except.map, throw, throwThe, MonadExceptOf.throw, bind,
      Except.bind]
  | nil =>
    simp only [State.forget, houter]
    cases p.flush s <;> rfl

/-- Without clauses a step does the same, but for what is captured. -/
theorem step_withoutClauses (l : Lexeme) :
    p.withoutClauses.step s.forget l = (p.step s l).map State.forget := by
  unfold step
  cases l.token with
  | word w => rfl
  | opening => exact congrArg Except.ok openTerm_withoutClauses
  | closing => exact closeTerm_withoutClauses
  | comma => exact separate_withoutClauses
  | ampersand => exact conjoin_withoutClauses andName
  | pipe => exact conjoin_withoutClauses orName
  | finish => rfl

/-- A run that captures nothing is a run whose captures are forgotten. -/
theorem foldlM_withoutClauses (ls : List Lexeme) :
    ls.foldlM p.withoutClauses.step s.forget = (ls.foldlM p.step s).map State.forget := by
  induction ls generalizing s with
  | nil => rfl
  | cons l ls ih =>
    rw [List.foldlM_cons, List.foldlM_cons, step_withoutClauses]
    cases p.step s l with
    | error e => rfl
    | ok s₁ => exact ih

end WithoutClauses

/-- **Collecting clauses changes nothing else.** -/
theorem run_withoutClauses (p : Parser) (text : String) :
    p.withoutClauses.run text = (p.run text).map fun r => (r.1, []) := by
  have hfold := foldlM_withoutClauses (p := p) (s := .start)
    (Token.scan (p.dialect.expand text)).lexemes
  change p.withoutClauses.runExpanded (p.dialect.expand text) = (p.runExpanded _).map _
  unfold runExpanded
  dsimp only
  rw [show State.start.forget = State.start from rfl] at hfold
  rw [hfold]
  cases (Token.scan (p.dialect.expand text)).lexemes.foldlM p.step State.start with
  | error e => rfl
  | ok s =>
    simp only [Except.map, bind, Except.bind]
    cases (Token.scan (p.dialect.expand text)).error? with
    | some e => rfl
    | none => exact finish_withoutClauses

end Parser

/-! ## Queries -/

namespace Query

/-- No clause changes the selector. -/
theorem selector_applyClause (q : Query) (c : Clause) :
    (q.applyClause c).selector = q.selector := by
  unfold applyClause applyClause?
  split_ifs <;> rfl

theorem selector_foldl_applyClause (q : Query) (cs : List Clause) :
    (cs.foldl applyClause q).selector = q.selector := by
  induction cs generalizing q with
  | nil => rfl
  | cons c cs ih => rw [List.foldl_cons, ih, selector_applyClause]

@[simp] theorem selector_ofClauses (t : Term) (cs : List Clause) : (ofClauses t cs).selector = t :=
  selector_foldl_applyClause _ cs

end Query

namespace Parser

variable {p : Parser} (hand : andName ∉ p.dialect.clauseNames)
  (hor : orName ∉ p.dialect.clauseNames) (text : String)

include hand hor

/-- What a run gives is known from the tree. -/
theorem run_eq_map_parse : p.run text =
    (p.parse text).map fun t => (t, t.lastClauses p.dialect.clauseNames) := by
  cases hparse : p.parse text with
  | ok t => exact run_eq_of_parse hand hor hparse
  | error e =>
    cases hrun : p.run text with
    | ok r => simp [parse, hrun, Except.map] at hparse
    | error e' => simpa [parse, hrun, Except.map] using hparse

/-- The query of a text is that of its tree. -/
theorem parseQuery_eq_map_parse : p.parseQuery text =
    (p.parse text).map fun t => Query.ofClauses t (t.lastClauses p.dialect.clauseNames) := by
  rw [parseQuery, run_eq_map_parse hand hor]
  cases p.parse text <;> rfl

omit hand hor

/-- **Clauses are last occurrences.**  Whether clauses are collected or not, and whether the query
is asked for or its tree, a text is read as the same tree or refused with the same error.  The
clauses that are collected are the last ones of each name among the terms of the tree in pre-order,
and the query is what they make of the tree, in this order. -/
theorem clauses_last_occurrences (p : Parser) (hand : andName ∉ p.dialect.clauseNames)
    (hor : orName ∉ p.dialect.clauseNames) (text : String) :
    p.parse text = p.withoutClauses.parse text ∧
    p.run text = (p.parse text).map (fun t => (t, t.lastClauses p.dialect.clauseNames)) ∧
    p.parseQuery text = (p.parse text).map (fun t =>
      Query.ofClauses t (t.lastClauses p.dialect.clauseNames)) ∧
    (p.parseQuery text).map Query.selector = p.parse text := by
  have hquery := parseQuery_eq_map_parse hand hor text
  refine ⟨?_, run_eq_map_parse hand hor text, hquery, ?_⟩
  · rw [parse, parse, run_withoutClauses]
    cases p.run text <;> rfl
  · rw [hquery]
    cases p.parse text with
    | ok t => exact congrArg Except.ok (Query.selector_ofClauses t _)
    | error e => rfl

/-- A `select` opens inside of another one, which is dropped, and a `limit` stands before both. -/
theorem clauses_last_occurrences_nested :
    queries.run "limit(1)&select(a,x(select(b)))" = .ok
      (Term.and [
        .term (some "limit") [.value (.number (.int 1))],
        .term (some "select") [.value (.string "a"),
          .term (some "x") [.term (some "select") [.value (.string "b")]]]],
      [⟨"limit", [.value (.number (.int 1))]⟩, ⟨"select", [.value (.string "b")]⟩]) := by
  have hparse : queries.parse "limit(1)&select(a,x(select(b)))" =
      .ok (Term.and [
        .term (some "limit") [.value (.number (.int 1))],
        .term (some "select") [.value (.string "a"),
          .term (some "x") [.term (some "select") [.value (.string "b")]]]]) := by
    with_unfolding_all rfl
  rw [(clauses_last_occurrences queries (by decide) (by decide) _).2.1, hparse]
  rfl

end Parser

end ResourceQuery
