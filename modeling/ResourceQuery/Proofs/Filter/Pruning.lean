import ResourceQuery.Proofs.Filter.Compilation

/-!
# A field policy prunes the selector

Compiling under a policy is compiling a smaller selector without one.  The terms on rejected
fields are taken out of the tree, wherever groups and negations lead to them, and everything else
stays: the groups keep their other members, and the conditions on an element are not looked at.

The policy is asked in each of the terms on a field, after the arguments were looked at in a way
of its own, and what is left out decides how a group is written.  So the equation is one of whole
documents, and it is proved for every member of a group at once with the group.

## Main definitions

* `Filter.isRejected`: a term on a field that is not allowed
* `Filter.prune?`: the tree without such terms, if there is something left of it
* `Filter.reached`: the terms that groups and negations lead to

## Main results

* `Filter.reachedIn_prune?`: pruning leaves out the rejected terms, and nothing else
* `Filter.compile?_eq_prune?`: what a node compiles to
* `Filter.ofSelector_eq_pruned`: what a selector compiles to
-/

namespace ResourceQuery

namespace Filter

variable {o : FilterOptions} {allowed : String → Bool}

/-- The names of the terms whose first argument is a field. -/
def fieldNames : List String :=
  Comparison.every.map Comparison.name ++ ["exists", "type", "size", "mod", "regex", "elemMatch"]

/-- A term on a field that is not allowed. -/
def isRejected (allowed : String → Bool) : Node → Bool
  | .term (some name) (field :: _) => fieldNames.contains name && field.path?.any (!allowed ·)
  | _ => false

mutual

/-- The tree without the terms on rejected fields that groups and negations lead to; there is
nothing left if the node is such a term itself. -/
def prune? (allowed : String → Bool) : Node → Option Node
  | .term name args =>
    if isRejected allowed (.term name args) then none
    else if isLogical (.term name args) then some (.term name (pruneAll allowed args))
    else some (.term name args)
  | .list items => some (.list items)
  | .value v => some (.value v)

/-- What is left of some trees. -/
def pruneAll (allowed : String → Bool) : List Node → List Node
  | [] => []
  | n :: ns => (prune? allowed n).toList ++ pruneAll allowed ns

end

mutual

/-- The nodes that groups and negations lead to, in order; a node that is neither leads to
itself. -/
def reached : Node → List Node
  | .term name args => if isLogical (.term name args) then reachedIn args else [.term name args]
  | .list items => [.list items]
  | .value v => [.value v]

/-- The nodes that some nodes lead to. -/
def reachedIn : List Node → List Node
  | [] => []
  | n :: ns => reached n ++ reachedIn ns

end

/-! ## What pruning leaves -/

theorem isLogical_term {name : String} {args : List Node} :
    isLogical (.term (some name) args) ↔ name ∈ [andName, orName, "nor", "not"] := by
  simp [isLogical, Node.isNamed]

/-- A term on a field is neither a group nor a negation. -/
theorem isLogical_of_mem_fieldNames {name : String} (h : name ∈ fieldNames) (args : List Node) :
    isLogical (.term (some name) args) = false := by
  have hapart : ∀ name ∈ fieldNames, name ∉ [andName, orName, "nor", "not"] := by decide
  exact Bool.eq_false_iff.mpr (mt isLogical_term.mp (hapart name h))

theorem isLogical_of_isRejected {n : Node} (h : isRejected allowed n) : isLogical n = false := by
  unfold isRejected at h
  split at h
  · next name field args =>
    rw [Bool.and_eq_true, List.contains_iff_mem] at h
    exact isLogical_of_mem_fieldNames h.1 _
  · cases h

theorem prune?_eq_none_iff {n : Node} : prune? allowed n = none ↔ isRejected allowed n := by
  cases n with
  | term name args =>
    unfold prune?
    split_ifs with hrejected <;> simp [hrejected]
  | list items => simp [prune?, isRejected]
  | value v => simp [prune?, isRejected]

/-- Groups and negations stay what they are. -/
theorem isLogical_of_prune? {n m : Node} (h : prune? allowed n = some m) :
    isLogical m = isLogical n := by
  cases n with
  | term name args =>
    unfold prune? at h
    split_ifs at h with hrejected hlogical <;> cases h <;> rfl
  | list items => cases h; rfl
  | value v => cases h; rfl

theorem isRejected_permitAll (n : Node) : isRejected (fun _ => true) n = false := by
  unfold isRejected
  split
  · next field _ => cases field.path? <;> simp
  · rfl

theorem pruneAll_eq_self {ns : List Node} (h : ∀ n ∈ ns, prune? allowed n = some n) :
    pruneAll allowed ns = ns := by
  induction ns with
  | nil => rfl
  | cons n ns ih =>
    obtain ⟨hn, hns⟩ := List.forall_mem_cons.mp h
    rw [pruneAll, hn, ih hns, Option.toList_some, List.singleton_append]

/-- Where everything is allowed, nothing is pruned. -/
theorem prune?_permitAll (n : Node) : prune? (fun _ => true) n = some n := by
  induction n with
  | term name args ih =>
    unfold prune?
    rw [if_neg (by simp [isRejected_permitAll]), pruneAll_eq_self ih, ite_self]
  | list items => rfl
  | value v => rfl

theorem reachedIn_append (ns ms : List Node) :
    reachedIn (ns ++ ms) = reachedIn ns ++ reachedIn ms := by
  induction ns with
  | nil => rfl
  | cons n ns ih => rw [List.cons_append, reachedIn, ih, reachedIn, List.append_assoc]

theorem reachedIn_pruneAll {ns : List Node}
    (h : ∀ n ∈ ns, reachedIn (prune? allowed n).toList =
      (reached n).filter fun m => !isRejected allowed m) :
    reachedIn (pruneAll allowed ns) = (reachedIn ns).filter fun m => !isRejected allowed m := by
  induction ns with
  | nil => rfl
  | cons n ns ih =>
    obtain ⟨hn, hns⟩ := List.forall_mem_cons.mp h
    rw [pruneAll, reachedIn_append, hn, ih hns, reachedIn, List.filter_append]

/-- **Pruning leaves out the rejected terms that are reached, and nothing else.**  A term that is
kept is kept with all that is in it. -/
theorem reachedIn_prune? (n : Node) : reachedIn (prune? allowed n).toList =
    (reached n).filter fun m => !isRejected allowed m := by
  induction n with
  | term name args ih =>
    unfold prune? reached
    split_ifs with hrejected hlogical hlogical
    · simp [isLogical_of_isRejected hrejected] at hlogical
    · simp [hrejected, reachedIn]
    · have hgroup : isLogical (.term name (pruneAll allowed args)) := hlogical
      rw [Option.toList_some, reachedIn, reached, if_pos hgroup, reachedIn, List.append_nil,
        reachedIn_pruneAll ih]
    · simp [hrejected, reachedIn, reached, hlogical]
  | list items => simp [prune?, reachedIn, reached, isRejected]
  | value v => simp [prune?, reachedIn, reached, isRejected]

/-! ## Terms on a field -/

/-- A term that compiles is on a field, or a group, a negation or program text. -/
theorem mem_fieldNames_or {name : String} {op : Operator} (h : Operator.ofName? name = some op) :
    name ∈ fieldNames ∨ op ∈ [.conjunction, .disjunction, .noneOf, .negation, .script] := by
  by_cases hop : ∃ c, op = .compare c
  · obtain ⟨c, rfl⟩ := hop
    left
    have hname : Comparison.ofName? name = some c := by
      unfold Operator.ofName? at h
      split at h
      · next hc => rw [hc, Operator.compare.inj (Option.some.inj h)]
      · obtain ⟨before, after, hnamed, -⟩ := List.lookup_eq_some_iff.mp h
        have hmem : (name, Operator.compare c) ∈ Operator.named := by simp [hnamed]
        simp [Operator.named] at hmem
    have hmem := List.mem_of_find?_eq_some hname
    obtain rfl : c.name = name := by simpa using List.find?_some hname
    exact List.mem_append_left _ (List.mem_map_of_mem hmem)
  · have hmem := mem_named_of_ofName? h (by simpa using hop)
    have hnamed : ∀ entry ∈ Operator.named, entry.1 ∈ fieldNames ∨
        entry.2 ∈ [.conjunction, .disjunction, .noneOf, .negation, .script] := by decide
    exact hnamed (name, op) hmem

/-- A term on a rejected field compiles to nothing. -/
theorem compile?_eq_none_of_isRejected {n : Node} (h : isRejected allowed n) :
    compile? o allowed n = none := by
  have hlogical := isLogical_of_isRejected h
  refine Option.eq_none_iff_forall_ne_some.mpr fun d hd => ?_
  have hpath : ∀ {name : String} {field : Node} {args : List Node} {path : String},
      isRejected allowed (.term (some name) (field :: args)) →
        allowedPath? allowed field ≠ some path := by
    intro name field args path hrejected hallowed
    obtain ⟨hresolved, hpath⟩ := Option.filter_eq_some_iff.mp hallowed
    simp [isRejected, hresolved, hpath] at hrejected
  cases compile?_eq_some_iff.mp hd with
  | onField _ _ hallowed => exact hpath h hallowed
  | conjunction hname => simp [isLogical_of_ofName? hname] at hlogical
  | disjunction hname => simp [isLogical_of_ofName? hname] at hlogical
  | noneOf hname => simp [isLogical_of_ofName? hname] at hlogical
  | negation hname => simp [isLogical_of_ofName? hname] at hlogical
  | element _ _ hallowed => exact hpath h hallowed
  | script hname =>
    obtain rfl := eq_where_of_ofName? hname
    have hwhere : "where" ∉ fieldNames := by decide
    simp [isRejected, hwhere] at h

/-- A condition on a field that is not rejected does not depend on the policy. -/
theorem onPath?_eq_of_not_isRejected {name : String} {field : Node} {args : List Node}
    (hname : name ∈ fieldNames) (h : ¬ isRejected allowed (.term (some name) (field :: args))) :
    onPath? allowed field = onPath? (fun _ => true) field := by
  funext condition
  have hallowed : ∀ path, field.path? = some path → allowed path := by
    intro path hpath
    simpa [isRejected, hname, hpath] using h
  unfold onPath? allowedPath?
  cases hpath : field.path? with
  | none => rfl
  | some path => simp [Option.filter, hallowed path hpath]

/-! ## Compiling what is left -/

section

variable (o allowed)

theorem compileAll_cons (n : Node) (ns : List Node) : compileAll o allowed (n :: ns) =
    ((compile? o allowed n).bind nonempty?).toList ++ compileAll o allowed ns := by
  rw [compileAll]
  cases (compile? o allowed n).bind nonempty? <;> rfl

/-- The options with nothing rejected. -/
abbrev permissive : FilterOptions := { o with policy := .permitAll }

/-- What a node compiles to is what is left of it compiles to without a policy. -/
def PrunesTo (n : Node) : Prop :=
  compile? o allowed n = (prune? allowed n).bind (compile? (permissive o) fun _ => true)

end

theorem compileAll_pruneAll {ns : List Node} (h : ∀ n ∈ ns, PrunesTo o allowed n) :
    compileAll o allowed ns = compileAll (permissive o) (fun _ => true) (pruneAll allowed ns) := by
  induction ns with
  | nil => rw [compileAll, pruneAll, compileAll]
  | cons n ns ih =>
    obtain ⟨hn, hns⟩ := List.forall_mem_cons.mp h
    rw [compileAll_cons, hn, ih hns, pruneAll]
    cases prune? allowed n with
    | none => rfl
    | some m => rw [Option.toList_some, List.singleton_append, compileAll_cons]; rfl

theorem negateAll_pruneAll {ns : List Node} (h : ∀ n ∈ ns, PrunesTo o allowed n) (d : Document) :
    negateAll o allowed d ns =
      negateAll (permissive o) (fun _ => true) d (pruneAll allowed ns) := by
  induction ns generalizing d with
  | nil => rw [negateAll, pruneAll, negateAll]
  | cons n ns ih =>
    obtain ⟨hn, hns⟩ := List.forall_mem_cons.mp h
    rw [negateAll_cons, hn, ih hns, pruneAll]
    cases hprune : prune? allowed n with
    | none =>
      rw [isLogical_of_isRejected (prune?_eq_none_iff.mp hprune)]
      rfl
    | some m =>
      rw [Option.toList_some, List.singleton_append, negateAll_cons, isLogical_of_prune? hprune]
      rfl

theorem compile?_of_isLogical {name : Option String} {args : List Node}
    (hlogical : isLogical (.term name args)) (h : ∀ n ∈ args, PrunesTo o allowed n) :
    compile? o allowed (.term name args) =
      compile? (permissive o) (fun _ => true) (.term name (pruneAll allowed args)) := by
  cases name with
  | none => simp [isLogical, Node.isNamed] at hlogical
  | some name =>
    have hname := isLogical_term.mp hlogical
    simp only [List.mem_cons, List.not_mem_nil, or_false] at hname
    rcases hname with rfl | rfl | rfl | rfl
    · rw [compile?_conjunction rfl, compile?_conjunction rfl, compileAll_pruneAll h]
    · rw [compile?_disjunction rfl, compile?_disjunction rfl, compileAll_pruneAll h]
    · rw [compile?_noneOf rfl, compile?_noneOf rfl, compileAll_pruneAll h]
    · rw [compile?_negation rfl, compile?_negation rfl, negateAll_pruneAll h]

/-- A term that is neither rejected nor a group compiles as it does without a policy. -/
theorem compile?_of_not_isLogical {name : String} {args : List Node}
    (hrejected : ¬ isRejected allowed (.term (some name) args))
    (hlogical : ¬ isLogical (.term (some name) args))
    (h : ∀ n ∈ args, PrunesTo o (fun _ => true) n) :
    compile? o allowed (.term (some name) args) =
      compile? (permissive o) (fun _ => true) (.term (some name) args) := by
  have honField : ∀ {condition : List Node → Option Value}
      (compile : (String → Bool) → List Node → Option Document),
      name ∈ fieldNames → (∀ allowed, compile allowed [] = none) →
      (∀ allowed field args, compile allowed (field :: args) =
        (condition args).bind (onPath? allowed field)) →
      compile allowed args = compile (fun _ => true) args := by
    intro condition compile hname hnil hcons
    cases args with
    | nil => rw [hnil, hnil]
    | cons field args => rw [hcons, hcons, onPath?_eq_of_not_isRejected hname hrejected]
  unfold compile?
  cases hop : Operator.ofName? name with
  | none => rfl
  | some op =>
    have hname := mem_fieldNames_or hop
    cases op with
    | compare c =>
      exact honField (comparison? · c) (by simpa using hname) (fun _ => rfl)
        fun _ => comparison?_cons c
    | existence =>
      exact honField existence? (by simpa using hname) (fun _ => rfl) fun _ => existence?_cons
    | typeNumber =>
      exact honField (numberCondition? · "$type") (by simpa using hname) (fun _ => rfl)
        fun _ => numberCondition?_cons "$type"
    | size =>
      exact honField (numberCondition? · "$size") (by simpa using hname) (fun _ => rfl)
        fun _ => numberCondition?_cons "$size"
    | remainder =>
      exact honField remainder? (by simpa using hname) (fun _ => rfl) fun _ => remainder?_cons
    | regex =>
      exact honField regex? (by simpa using hname) (fun _ => rfl) fun _ => regex?_cons
    | element =>
      cases args with
      | nil => rfl
      | cons field conditions =>
        have hinner := compileAll_pruneAll fun n hn => h n (List.mem_cons_of_mem _ hn)
        rw [pruneAll_eq_self fun n _ => prune?_permitAll n] at hinner
        dsimp only
        rw [hinner, element?, element?,
          onPath?_eq_of_not_isRejected (by simpa using hname) hrejected]
    | script => rfl
    | _ => exact absurd (isLogical_of_ofName? hop (by simp) args) hlogical

/-- **What a node compiles to is what is left of it compiles to without a policy.** -/
theorem compile?_eq_prune? (n : Node) : PrunesTo o allowed n := by
  -- The policy changes on the way down, at the conditions on an element.
  induction n generalizing allowed with
  | term name args ih =>
    unfold PrunesTo prune?
    split_ifs with hrejected hlogical
    · exact compile?_eq_none_of_isRejected hrejected
    · exact compile?_of_isLogical hlogical fun n hn => ih n hn
    · cases name with
      | none => simp [compile?]
      | some name => exact compile?_of_not_isLogical hrejected hlogical fun n hn => ih n hn
  | list items => simp [PrunesTo, prune?, compile?]
  | value v => simp [PrunesTo, prune?, compile?]

end Filter

namespace Term

/-- The selector without the terms on rejected fields; nothing if it is such a term itself. -/
def pruned? (allowed : String → Bool) (t : Term) : Option Term :=
  (Filter.prune? allowed t.toNode).bind Node.term?

end Term

namespace Filter

/-- What is left of a term is a term of its name. -/
theorem exists_of_prune?_term {name : Option String} {args : List Node} {m : Node}
    (h : prune? allowed (.term name args) = some m) : ∃ kept, m = .term name kept := by
  unfold prune? at h
  split_ifs at h <;> cases h
  · exact ⟨_, rfl⟩
  · exact ⟨_, rfl⟩

theorem prune?_conjunction (args : List Node) : prune? allowed (.term (some andName) args) =
    some (.term (some andName) (pruneAll allowed args)) := by
  have hlogical : isLogical (.term (some andName) args) := isLogical_term.mpr (by decide)
  have hkept : ¬ isRejected allowed (.term (some andName) args) := by
    intro hrejected
    simp [isLogical_of_isRejected hrejected] at hlogical
  rw [prune?, if_neg hkept, if_pos hlogical]

/-- **A field policy prunes the selector.**  The document of a selector under a policy is that of
the pruned selector under none, and empty if nothing is left of it.  What is pruned are the terms
on rejected fields that groups and negations lead to from the root; all others stay, in their
order and with all that is in them. -/
theorem ofSelector_eq_pruned (o : FilterOptions) (t : Term) :
    ofSelector o t = (t.pruned? o.policy.isAllowed).elim []
      (ofSelector { o with policy := .permitAll }) ∧
    (t.pruned? o.policy.isAllowed).elim [] (fun u => reached u.toNode) =
      (reached t.toNode).filter fun n => !isRejected o.policy.isAllowed n := by
  obtain ⟨name, args⟩ := t
  have hprunes : ∀ n, PrunesTo o o.policy.isAllowed n := compile?_eq_prune?
  constructor
  · by_cases hand : name = some andName
    · -- A conjunction at the root is merged, whatever the options say of inner ones.
      subst hand
      have hmembers := compileAll_pruneAll fun n (_ : n ∈ args) => hprunes n
      simp only [ofSelector, Term.pruned?, Term.toNode, Term.isNamed, prune?_conjunction,
        Option.bind_some, Node.term?, Option.elim_some, beq_self_eq_true, if_true, hmembers]
      rfl
    · have hroot : ∀ kept, (⟨name, kept⟩ : Term).isNamed andName = false := by
        simpa [Term.isNamed] using hand
      simp only [ofSelector, Term.pruned?, Term.toNode, hroot, Bool.false_eq_true, if_false]
      rw [hprunes (.term name args)]
      cases hprune : prune? o.policy.isAllowed (.term name args) with
      | none => rfl
      | some m =>
        obtain ⟨kept, rfl⟩ := exists_of_prune?_term hprune
        simp only [Option.bind_some, Node.term?, Option.elim_some, ofSelector, hroot,
          Bool.false_eq_true, if_false]
        rfl
  · simp only [Term.pruned?, Term.toNode]
    rw [← reachedIn_prune?]
    cases hprune : prune? o.policy.isAllowed (.term name args) with
    | none => rfl
    | some m =>
      obtain ⟨kept, rfl⟩ := exists_of_prune?_term hprune
      simp [Node.term?, reachedIn]

end Filter

end ResourceQuery
