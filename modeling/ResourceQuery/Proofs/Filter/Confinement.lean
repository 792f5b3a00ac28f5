import ResourceQuery.Proofs.Filter.Compilation

/-!
# Rejected fields stay out of filters

The keys of a compiled filter are group keys, the key of program text, and paths that the policy
allows.  This goes for the filter and for every document that its groups list, at any depth, but
not for the conditions on an element: their paths are relative to the element.

## Main definitions

* `Document.Lists`: a document, and the documents that its groups list
* `Node.Within`: a node somewhere in a tree
* `Filter.Admitted`: an entry that the policy has nothing against

## Main results

* `Filter.Confined.merges`: adding an admitted entry keeps the others admitted
* `Filter.confined_of_compile?`: every entry of what a node compiles to is admitted
* `Filter.no_rejected_field`: every entry of a compiled selector is admitted
-/

namespace ResourceQuery

namespace Document

/-- The keys under which groups list documents. -/
def groupKeys : List String := ["$and", "$or", "$nor"]

/-- The document itself, and the documents that groups list in it, at any depth. -/
inductive Lists : Document → Document → Prop
  | self (d : Document) : Lists d d
  | group {d e f : Document} {key : String} {items : List Value} (hkey : key ∈ groupKeys)
      (hentry : (key, Value.array items) ∈ d) (hitem : Value.object e ∈ items) (h : Lists e f) :
      Lists d f

end Document

namespace Node

/-- A node somewhere in a tree. -/
inductive Within (x : Node) : Node → Prop
  | self : Within x x
  | arg {name : Option String} {args : List Node} {n : Node} (hn : n ∈ args) (h : Within x n) :
      Within x (.term name args)
  | item {items : List Node} {n : Node} (hn : n ∈ items) (h : Within x n) :
      Within x (.list items)

end Node

namespace Filter

open Document (groupKeys Lists)

variable {o : FilterOptions} {allowed : String → Bool} {scripts : String → Prop}

/-- An entry that the policy has nothing against: a list of documents under a group key, program
text that was asked for and may be run, or a condition on an allowed path. -/
inductive Admitted (o : FilterOptions) (allowed : String → Bool) (scripts : String → Prop) :
    String → Value → Prop
  | group {key : String} (hkey : key ∈ groupKeys) (docs : List Document) :
      Admitted o allowed scripts key (Document.listed docs)
  | script {code : String} (hallow : o.allowWhere) (hcode : scripts code) :
      Admitted o allowed scripts "$where" (.string code)
  | path {key : String} (hkey : allowed key) (v : Value) : Admitted o allowed scripts key v

/-- All entries of the document are admitted, and so are those of the documents it lists. -/
def Confined (o : FilterOptions) (allowed : String → Bool) (scripts : String → Prop)
    (d : Document) : Prop :=
  ∀ e, Lists d e → ∀ entry ∈ e, Admitted o allowed scripts entry.1 entry.2

/-- An entry is admitted, and so is what it lists if it is a group. -/
def EntryConfined (o : FilterOptions) (allowed : String → Bool) (scripts : String → Prop)
    (key : String) (v : Value) : Prop :=
  Admitted o allowed scripts key v ∧ (key ∈ groupKeys → ∀ items, v = .array items →
    ∀ e, Value.object e ∈ items → Confined o allowed scripts e)

/-- Documents are confined entry by entry. -/
theorem confined_iff {d : Document} : Confined o allowed scripts d ↔
    ∀ entry ∈ d, EntryConfined o allowed scripts entry.1 entry.2 := by
  constructor
  · intro h entry hentry
    refine ⟨h d (.self d) entry hentry, ?_⟩
    rintro hkey items hitems e he f hf
    have hmem : (entry.1, Value.array items) ∈ d := hitems ▸ hentry
    exact h f (.group hkey hmem he hf)
  · intro h e he
    cases he with
    | self => exact fun entry hentry => (h entry hentry).1
    | group hkey hentry hitem hlists => exact (h _ hentry).2 hkey _ rfl _ hitem _ hlists

/-- A condition on a path that the policy allows is confined, if no documents are listed in it. -/
theorem entryConfined_path {key : String} (hkey : allowed key) {v : Value}
    (hv : ∀ items, v = .array items → ∀ e, Value.object e ∉ items) :
    EntryConfined o allowed scripts key v :=
  ⟨.path hkey v, fun _ items hitems e he => absurd he (hv items hitems e)⟩

theorem entryConfined_group {key : String} (hkey : key ∈ groupKeys) {docs : List Document}
    (h : ∀ d ∈ docs, Confined o allowed scripts d) :
    EntryConfined o allowed scripts key (Document.listed docs) := by
  refine ⟨.group hkey docs, fun _ items hitems e he => ?_⟩
  obtain rfl := Value.array.inj hitems
  obtain ⟨d, hd, hobject⟩ := List.mem_map.mp he
  obtain rfl := Value.object.inj hobject
  exact h d hd

/-- A path that an operator document is admitted on is allowed. -/
theorem Admitted.allowed_of_object {key : String} {d : Document}
    (h : Admitted o allowed scripts key (.object d)) : allowed key := by
  generalize hv : Value.object d = v at h
  cases h with
  | group hkey docs => cases hv
  | script hallow hcode => cases hv
  | path hkey v => exact hkey

/-- Adding a confined entry to a confined document. -/
theorem Confined.merges {d d' : Document} {key : String} {v : Value}
    (hd : Confined o allowed scripts d) (hv : EntryConfined o allowed scripts key v)
    (h : d.Merges key v d') : Confined o allowed scripts d' := by
  rw [confined_iff] at hd ⊢
  cases h with
  | appended =>
    intro entry hentry
    rcases List.mem_append.mp hentry with hentry | hentry
    · exact hd entry hentry
    · obtain rfl := List.mem_singleton.mp hentry
      exact hv
  | @joined before after a b hd' =>
    subst hd'
    intro entry hentry
    rcases List.mem_append.mp hentry with hentry | hentry
    · exact hd entry (List.mem_append_left _ hentry)
    · rcases List.mem_cons.mp hentry with rfl | hentry
      · -- The path of joined operators was admitted when the first of them came.
        have hjoined := (hd (key, .object a) (by simp)).1
        exact entryConfined_path hjoined.allowed_of_object (by simp)
      · exact hd entry (by simp [hentry])

/-- A conjunction is confined if its members are, whichever form it takes. -/
theorem confined_of_conjunction? {compact : Bool} {docs : List Document} {d : Document}
    (hdocs : ∀ e ∈ docs, Confined o allowed scripts e) (h : conjunction? compact docs = some d) :
    Confined o allowed scripts d := by
  obtain ⟨-, rfl | hmerged | rfl⟩ := conjunction?_cases h
  · exact hdocs d (by simp)
  · have hflatten : ∀ entry ∈ docs.flatten, EntryConfined o allowed scripts entry.1 entry.2 := by
      intro entry hentry
      obtain ⟨e, he, hentry⟩ := List.mem_flatten.mp hentry
      exact confined_iff.mp (hdocs e he) entry hentry
    refine Document.mergeEntries?_induction (motive := fun d seen =>
      (∀ entry ∈ seen, EntryConfined o allowed scripts entry.1 entry.2) →
        Confined o allowed scripts d) ?_ ?_ hmerged hflatten
    · intro _
      exact confined_iff.mpr (by simp)
    · intro d d' seen key v hmerges ih hseen
      obtain ⟨hseen, hentry⟩ := List.forall_mem_append.mp hseen
      exact (ih hseen).merges (hentry (key, v) (List.mem_singleton_self _)) hmerges
  · refine confined_iff.mpr (List.forall_mem_singleton.mpr ?_)
    exact entryConfined_group (by simp [groupKeys]) hdocs

theorem allowed_of_allowedPath? {field : Node} {path : String}
    (h : allowedPath? allowed field = some path) : allowed path :=
  (Option.filter_eq_some_iff.mp h).2

theorem isOperatorKey_of_mem_groupKeys {key : String} (h : key ∈ groupKeys) :
    isOperatorKey key := by
  have hoperators : ∀ key ∈ groupKeys, isOperatorKey key := by decide
  exact hoperators key h

/-- What a negation has been given is on allowed paths: group keys and program text are
operators, and those are left out. -/
theorem Admitted.allowed_of_isOperatorKey {key : String} {v : Value}
    (h : Admitted o allowed scripts key v) (hkey : isOperatorKey key = false) : allowed key := by
  cases h with
  | group hgroup docs => simp [isOperatorKey_of_mem_groupKeys hgroup] at hkey
  | script => simp [isOperatorKey] at hkey
  | path hallowed => exact hallowed

theorem IsPlain.notMem_array {c : Value} (hc : IsPlain c) {items : List Value}
    (hitems : c = .array items) (e : Document) : Value.object e ∉ items := by
  subst hitems
  cases hc with
  | operand h =>
    intro he
    exact absurd (Value.areDocumentFree_iff.mp h _ he) (by simp [Value.isDocumentFree])

/-- **Every entry of what a node compiles to is admitted.** -/
theorem confined_of_compile? {n : Node} (hn : n.allValues Value.isDocumentFree)
    (hscripts : ∀ code, Node.Within (.term (some "where") [.value (.string code)]) n →
      scripts code)
    {d : Document} (h : compile? o allowed n = some d) : Confined o allowed scripts d := by
  induction n generalizing d with
  | term name args ih =>
    have hargs := Node.allValues_term.mp hn
    have hmembers : ∀ m ∈ args, ∀ e, compile? o allowed m = some e →
        Confined o allowed scripts e := fun m hm e he =>
      ih m hm (hargs m hm) (fun code hcode => hscripts code (.arg hm hcode)) he
    have hdocs : ∀ e ∈ compileAll o allowed args, Confined o allowed scripts e := by
      intro e he
      obtain ⟨m, hm, hcompile, -⟩ := mem_compileAll_iff.mp he
      exact hmembers m hm e hcompile
    cases compile?_eq_some_iff.mp h with
    | onField hname hcondition hpath =>
      have hplain := isPlain_of_condition?
        (fun m hm => hargs m (List.mem_cons_of_mem _ hm)) hcondition
      refine confined_iff.mpr (List.forall_mem_singleton.mpr ?_)
      exact entryConfined_path (allowed_of_allowedPath? hpath) fun _ => hplain.notMem_array
    | conjunction hname hd => exact confined_of_conjunction? hdocs hd
    | disjunction hname hne =>
      refine confined_iff.mpr (List.forall_mem_singleton.mpr ?_)
      exact entryConfined_group (by simp [groupKeys]) hdocs
    | noneOf hname hne =>
      refine confined_iff.mpr (List.forall_mem_singleton.mpr ?_)
      exact entryConfined_group (by simp [groupKeys]) hdocs
    | negation hname hne =>
      refine negateAll_induction (confined_iff.mpr (by simp)) ?_
      intro m hm e _ he d d' key v hentry hkey hmerges hd
      have hadmitted := (confined_iff.mp (hmembers m hm e he) (key, v) hentry).1
      refine hd.merges ⟨.path (hadmitted.allowed_of_isOperatorKey hkey) _, ?_⟩ hmerges
      intro hgroup
      simp [isOperatorKey_of_mem_groupKeys hgroup] at hkey
    | element hname hd hpath =>
      refine confined_iff.mpr (List.forall_mem_singleton.mpr ?_)
      exact entryConfined_path (allowed_of_allowedPath? hpath) (by simp [Value.entry])
    | @script name code hname hallow =>
      obtain rfl := eq_where_of_ofName? hname
      refine confined_iff.mpr (List.forall_mem_singleton.mpr ⟨?_, by simp⟩)
      exact .script hallow (hscripts code .self)
  | list items => cases h
  | value v => cases h

theorem confined_ofSelector {t : Term} (ht : t.toNode.allValues Value.isDocumentFree)
    (hscripts : ∀ code, Node.Within (.term (some "where") [.value (.string code)]) t.toNode →
      scripts code) :
    Confined o o.policy.isAllowed scripts (ofSelector o t) := by
  unfold ofSelector
  split_ifs
  · cases hand : conjunction? true (compileAll o o.policy.isAllowed t.args) with
    | none => exact confined_iff.mpr (by simp)
    | some d =>
      refine confined_of_conjunction? (fun e he => ?_) hand
      obtain ⟨m, hm, hcompile, -⟩ := mem_compileAll_iff.mp he
      exact confined_of_compile? (Node.allValues_term.mp ht m hm)
        (fun code hcode => hscripts code (.arg hm hcode)) hcompile
  · cases hnode : compile? o o.policy.isAllowed t.toNode with
    | none => exact confined_iff.mpr (by simp)
    | some d => exact confined_of_compile? ht hscripts hnode

/-- **No rejected field is in a compiled selector.**  In the selector, and in the documents that
its groups list, every entry is a group, program text of a `where` that may be run, or on a path
that the policy allows. -/
theorem no_rejected_field (o : FilterOptions) (t : Term)
    (ht : t.toNode.allValues Value.isDocumentFree) {d : Document} (hd : Lists (ofSelector o t) d)
    {key : String} {v : Value} (hentry : (key, v) ∈ d) :
    (key ∈ groupKeys ∧ ∃ docs, v = Document.listed docs) ∨
      (key = "$where" ∧ o.allowWhere ∧ ∃ code, v = .string code ∧
        Node.Within (.term (some "where") [.value (.string code)]) t.toNode) ∨
      o.policy.isAllowed key := by
  have hconfined := confined_ofSelector (o := o) ht fun code hcode => hcode
  cases hconfined d hd (key, v) hentry with
  | group hkey docs => exact .inl ⟨hkey, docs, rfl⟩
  | script hallow hcode => exact .inr (.inl ⟨rfl, hallow, _, rfl, hcode⟩)
  | path hkey => exact .inr (.inr hkey)

/-- The second member of a disjunction, whose first is on a rejected field. -/
theorem no_rejected_field_listed :
    let o : FilterOptions := { policy := { blacklist := some ["secret"] } }
    let t : Term := ⟨some orName, [
      .term (some "gt") [.value (.string "secret"), .value (.number (.int 1))],
      .term (some "lt") [.value (.string "age"), .value (.number (.int 3))]]⟩
    let v : Value := .entry "$lt" (.number (.int 3))
    t.toNode.allValues Value.isDocumentFree ∧ Lists (ofSelector o t) [("age", v)] ∧
      (("age" ∈ groupKeys ∧ ∃ docs, v = Document.listed docs) ∨
        ("age" = "$where" ∧ o.allowWhere ∧ ∃ code, v = .string code ∧
          Node.Within (.term (some "where") [.value (.string code)]) t.toNode) ∨
        o.policy.isAllowed "age") := by
  intro o t v
  have ht : t.toNode.allValues Value.isDocumentFree := by decide
  have hselector : ofSelector o t = [("$or", .array [.object [("age", v)]])] := by rfl
  have hlists : Lists (ofSelector o t) [("age", v)] := by
    rw [hselector]
    exact .group (by decide) (List.mem_singleton_self _) (List.mem_singleton_self _) (.self _)
  exact ⟨ht, hlists, no_rejected_field o t ht hlists (List.mem_singleton_self _)⟩

end Filter

end ResourceQuery
