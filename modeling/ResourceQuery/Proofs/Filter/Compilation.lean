import ResourceQuery.Filter.Compile
import ResourceQuery.Proofs.Filter.Merging
import ResourceQuery.Proofs.Term.Basic

/-!
# What terms compile to

There are few ways in which a term compiles to a document: a condition on a path, a group, a
negation, the conditions on an element, or program text.  They are listed here once, with all
that each of them requires, so that later proofs look at ways and not at functions.

## Main definitions

* `Filter.condition?`: the condition of a term on a field, from the arguments after the field
* `Filter.Compiled`: the ways in which a node compiles to a document
* `Value.isDocumentFree`: a value without documents in it
* `Filter.IsCondition`: what the condition of a term on a field can be

## Main results

* `Filter.compile?_eq_some_iff`: compilation follows one of the ways
* `Filter.mem_compileAll_iff`: the members of a group that compile
* `Filter.ne_nil_of_compile?`: no term compiles to an empty document
* `Filter.negateAll_induction`: what holds of a negation
* `Filter.isCondition_of_condition?`: the conditions of terms on a field
* `Filter.isPlain_of_condition?`: a condition has documents of operators at most
-/

namespace ResourceQuery

namespace Filter

variable {o : FilterOptions} {allowed : String → Bool}

/-! ## Conditions on a field -/

/-- The condition of `exists`. -/
def existenceCondition? : List Node → Option Value
  | [] => some (.entry "$exists" (.bool true))
  | [.value (.bool b)] => some (.entry "$exists" (.bool b))
  | _ => none

/-- The condition of an operator with a number. -/
def numericCondition? (key : String) : List Node → Option Value
  | [.value v] => if v.isNumber then some (.entry key v) else none
  | _ => none

/-- The condition of `mod`. -/
def remainderCondition? : List Node → Option Value
  | [.value divisor, .value rest] | [.list [.value divisor, .value rest]] =>
    if divisor.isNumber && rest.isNumber then some (.entry "$mod" (.array [divisor, rest]))
    else none
  | _ => none

/-- The condition of `regex`. -/
def regexCondition? : List Node → Option Value
  | [.value p] => if isPatternText p then some (.entry "$regex" p) else none
  | [.value p, .value (.string flags)] =>
    if isPatternText p then some (.object [("$regex", p), ("$options", .string flags)]) else none
  | _ => none

/-- The condition of a term on a field, from the arguments after the field. -/
def condition? : Operator → List Node → Option Value
  | .compare c, operand :: _ => operand.toValue?.bind (comparisonCondition? c)
  | .existence, args => existenceCondition? args
  | .typeNumber, args => numericCondition? "$type" args
  | .size, args => numericCondition? "$size" args
  | .remainder, args => remainderCondition? args
  | .regex, args => regexCondition? args
  | _, _ => none

/-- The terms on a field put a condition on the path of their first argument, a comparison among
them. -/
theorem comparison?_cons (c : Comparison) (field : Node) (args : List Node) :
    comparison? allowed c (field :: args) =
      (condition? (.compare c) args).bind (onPath? allowed field) := by
  cases args <;> rfl

theorem existence?_cons (field : Node) (args : List Node) :
    existence? allowed (field :: args) =
      (existenceCondition? args).bind (onPath? allowed field) := by
  fun_cases existenceCondition? args
  · rfl
  · rfl
  · -- Neither form of the arguments is there, so the last branch is taken on both sides.
    unfold existence?
    split
    · simp_all
    · simp_all
    · rfl

theorem numberCondition?_cons (key : String) (field : Node) (args : List Node) :
    numberCondition? allowed key (field :: args) =
      (numericCondition? key args).bind (onPath? allowed field) := by
  fun_cases numericCondition? key args <;> simp_all [numberCondition?]

theorem remainder?_cons (field : Node) (args : List Node) :
    remainder? allowed (field :: args) =
      (remainderCondition? args).bind (onPath? allowed field) := by
  fun_cases remainderCondition? args <;> simp_all [remainder?, remainder?.condition]

theorem regex?_cons (field : Node) (args : List Node) :
    regex? allowed (field :: args) = (regexCondition? args).bind (onPath? allowed field) := by
  fun_cases regexCondition? args <;> simp_all [regex?]

/-- A condition is put on a path if the policy allows it. -/
theorem onPath?_eq_some_iff {field : Node} {condition : Value} {d : Document} :
    onPath? allowed field condition = some d ↔
      ∃ path, allowedPath? allowed field = some path ∧ d = [(path, condition)] := by
  rw [onPath?, Option.map_eq_some_iff]
  exact exists_congr fun path => and_congr_right fun _ => eq_comm

/-! ## Names -/

/-- An operator that is no comparison is in the table of names. -/
theorem mem_named_of_ofName? {name : String} {op : Operator}
    (h : Operator.ofName? name = some op) (hop : ∀ c, op ≠ .compare c) :
    (name, op) ∈ Operator.named := by
  unfold Operator.ofName? at h
  split at h
  · next c _ => exact absurd (Option.some.inj h).symm (hop c)
  · obtain ⟨before, after, hnamed, -⟩ := List.lookup_eq_some_iff.mp h
    rw [hnamed]
    simp

theorem eq_where_of_ofName? {name : String} (h : Operator.ofName? name = some .script) :
    name = "where" := by
  have hmem := mem_named_of_ofName? h (by simp)
  simpa [Operator.named] using hmem

/-! ## Groups -/

theorem compile?_conjunction {name : String} (h : Operator.ofName? name = some .conjunction)
    (args : List Node) : compile? o allowed (.term (some name) args) =
      conjunction? o.compactAnd (compileAll o allowed args) := by
  unfold compile?
  rw [h]

theorem compile?_disjunction {name : String} (h : Operator.ofName? name = some .disjunction)
    (args : List Node) : compile? o allowed (.term (some name) args) =
      group? "$or" (compileAll o allowed args) := by
  unfold compile?
  rw [h]

theorem compile?_noneOf {name : String} (h : Operator.ofName? name = some .noneOf)
    (args : List Node) : compile? o allowed (.term (some name) args) =
      group? "$nor" (compileAll o allowed args) := by
  unfold compile?
  rw [h]

/-- A negation compiles to the complements of its arguments, unless there are none. -/
theorem compile?_negation {name : String} (h : Operator.ofName? name = some .negation)
    (args : List Node) : compile? o allowed (.term (some name) args) =
      nonempty? (negateAll o allowed [] args) := by
  unfold compile?
  rw [h]

/-- The conditions on an element are compiled without the policy, which is for the path of the
array. -/
theorem compile?_element {name : String} (h : Operator.ofName? name = some .element)
    (field : Node) (conditions : List Node) :
    compile? o allowed (.term (some name) (field :: conditions)) =
      element? allowed field (compileAll o (fun _ => true) conditions) := by
  unfold compile?
  rw [h]

/-! ## The ways to compile -/

/-- The ways in which a node compiles to a document. -/
inductive Compiled (o : FilterOptions) (allowed : String → Bool) : Node → Document → Prop
  | onField {name : String} {op : Operator} {field : Node} {args : List Node} {path : String}
      {condition : Value} (hname : Operator.ofName? name = some op)
      (hcondition : condition? op args = some condition)
      (hpath : allowedPath? allowed field = some path) :
      Compiled o allowed (.term (some name) (field :: args)) [(path, condition)]
  | conjunction {name : String} {args : List Node} {d : Document}
      (hname : Operator.ofName? name = some .conjunction)
      (hd : conjunction? o.compactAnd (compileAll o allowed args) = some d) :
      Compiled o allowed (.term (some name) args) d
  | disjunction {name : String} {args : List Node}
      (hname : Operator.ofName? name = some .disjunction) (hne : compileAll o allowed args ≠ []) :
      Compiled o allowed (.term (some name) args)
        [("$or", Document.listed (compileAll o allowed args))]
  | noneOf {name : String} {args : List Node}
      (hname : Operator.ofName? name = some .noneOf) (hne : compileAll o allowed args ≠ []) :
      Compiled o allowed (.term (some name) args)
        [("$nor", Document.listed (compileAll o allowed args))]
  | negation {name : String} {args : List Node}
      (hname : Operator.ofName? name = some .negation) (hne : negateAll o allowed [] args ≠ []) :
      Compiled o allowed (.term (some name) args) (negateAll o allowed [] args)
  | element {name : String} {field : Node} {conditions : List Node} {path : String}
      {d : Document} (hname : Operator.ofName? name = some .element)
      (hd : conjunction? true (compileAll o (fun _ => true) conditions) = some d)
      (hpath : allowedPath? allowed field = some path) :
      Compiled o allowed (.term (some name) (field :: conditions))
        [(path, .entry "$elemMatch" (.object d))]
  | script {name : String} {code : String} (hname : Operator.ofName? name = some .script)
      (hallow : o.allowWhere) :
      Compiled o allowed (.term (some name) [.value (.string code)]) [("$where", .string code)]

/-- Program text compiles if it is a single string and the options allow it. -/
theorem script?_eq_some_iff {args : List Node} {d : Document} :
    script? o args = some d ↔
      ∃ code, args = [.value (.string code)] ∧ o.allowWhere ∧ d = [("$where", .string code)] := by
  constructor
  · intro h
    unfold script? at h
    split at h
    · next code =>
      split_ifs at h with hallow
      exact ⟨code, rfl, hallow, (Option.some.inj h).symm⟩
    · cases h
  · rintro ⟨code, rfl, hallow, rfl⟩
    rw [script?, if_pos hallow]

theorem nonempty?_eq_some_iff {d e : Document} : nonempty? d = some e ↔ d = e ∧ e ≠ [] := by
  unfold nonempty?
  rcases d with _ | ⟨entry, d⟩
  · simp
  · simp only [List.isEmpty_cons, Bool.false_eq_true, if_false, Option.some.injEq]
    refine ⟨fun h => ⟨h, ?_⟩, And.left⟩
    simp [← h]

theorem group?_eq_some_iff {key : String} {docs : List Document} {d : Document} :
    group? key docs = some d ↔ docs ≠ [] ∧ d = [(key, Document.listed docs)] := by
  unfold group?
  rcases docs with _ | ⟨e, docs⟩
  · simp
  · simp [eq_comm]

/-- A term on a field, from the equation of its operator. -/
theorem compiled_onField {name : String} {op : Operator} {compile : List Node → Option Document}
    (hname : Operator.ofName? name = some op) (hnil : compile [] = none)
    (hcons : ∀ field args, compile (field :: args) =
      (condition? op args).bind (onPath? allowed field))
    {args : List Node} {d : Document} (h : compile args = some d) :
    Compiled o allowed (.term (some name) args) d := by
  cases args with
  | nil => simp [hnil] at h
  | cons field args =>
    rw [hcons] at h
    obtain ⟨condition, hcondition, h⟩ := Option.bind_eq_some_iff.mp h
    obtain ⟨path, hpath, rfl⟩ := onPath?_eq_some_iff.mp h
    exact .onField hname hcondition hpath

/-- Compilation follows one of the ways.  There is one case for each operator, in the order of
`compile?`. -/
theorem compiled_of_compile? {n : Node} {d : Document} (h : compile? o allowed n = some d) :
    Compiled o allowed n d := by
  unfold compile? at h
  split at h
  · next name args =>
    split at h
    · next hname => exact compiled_onField hname rfl (comparison?_cons _) h
    · next hname => exact .conjunction hname h
    · next hname =>
      obtain ⟨hne, rfl⟩ := group?_eq_some_iff.mp h
      exact .disjunction hname hne
    · next hname =>
      obtain ⟨hne, rfl⟩ := group?_eq_some_iff.mp h
      exact .noneOf hname hne
    · next hname =>
      obtain ⟨rfl, hne⟩ := nonempty?_eq_some_iff.mp h
      exact .negation hname hne
    · next hname => exact compiled_onField hname rfl existence?_cons h
    · next hname => exact compiled_onField hname rfl (numberCondition?_cons "$type") h
    · next hname => exact compiled_onField hname rfl (numberCondition?_cons "$size") h
    · next hname => exact compiled_onField hname rfl remainder?_cons h
    · next hname => exact compiled_onField hname rfl regex?_cons h
    · next hname =>
      split at h
      · cases h
      · next field conditions =>
        obtain ⟨e, he, h⟩ := Option.bind_eq_some_iff.mp h
        obtain ⟨path, hpath, rfl⟩ := onPath?_eq_some_iff.mp h
        exact .element hname he hpath
    · next hname =>
      obtain ⟨code, rfl, hallow, rfl⟩ := script?_eq_some_iff.mp h
      exact .script hname hallow
    · cases h
  · cases h
  · cases h
  · cases h

theorem compile?_of_compiled {n : Node} {d : Document} (h : Compiled o allowed n d) :
    compile? o allowed n = some d := by
  cases h with
  | @onField name op field args path condition hname hcondition hpath =>
    have honPath : onPath? allowed field condition = some [(path, condition)] :=
      onPath?_eq_some_iff.mpr ⟨path, hpath, rfl⟩
    have hbind : (condition? op args).bind (onPath? allowed field) = some [(path, condition)] := by
      rw [hcondition, Option.bind_some, honPath]
    unfold compile?
    rw [hname]
    cases op with
    | compare c => exact (comparison?_cons c field args).trans hbind
    | existence => exact (existence?_cons field args).trans hbind
    | typeNumber => exact (numberCondition?_cons "$type" field args).trans hbind
    | size => exact (numberCondition?_cons "$size" field args).trans hbind
    | remainder => exact (remainder?_cons field args).trans hbind
    | regex => exact (regex?_cons field args).trans hbind
    | _ => simp [condition?] at hcondition
  | conjunction hname hd => rw [compile?_conjunction hname, hd]
  | disjunction hname hne =>
    rw [compile?_disjunction hname]
    exact group?_eq_some_iff.mpr ⟨hne, rfl⟩
  | noneOf hname hne =>
    rw [compile?_noneOf hname]
    exact group?_eq_some_iff.mpr ⟨hne, rfl⟩
  | negation hname hne =>
    rw [compile?_negation hname]
    exact nonempty?_eq_some_iff.mpr ⟨rfl, hne⟩
  | element hname hd hpath =>
    rw [compile?_element hname, element?, hd, Option.bind_some]
    exact onPath?_eq_some_iff.mpr ⟨_, hpath, rfl⟩
  | script hname hallow =>
    unfold compile?
    rw [hname]
    exact if_pos hallow

/-- **What a node compiles to.** -/
theorem compile?_eq_some_iff {n : Node} {d : Document} :
    compile? o allowed n = some d ↔ Compiled o allowed n d :=
  ⟨compiled_of_compile?, compile?_of_compiled⟩

/-! ## Members -/

/-- The documents of a group are those that its members compile to, without empty ones. -/
theorem mem_compileAll_iff {ns : List Node} {d : Document} :
    d ∈ compileAll o allowed ns ↔ ∃ n ∈ ns, compile? o allowed n = some d ∧ d ≠ [] := by
  induction ns with
  | nil => simp [compileAll]
  | cons n ns ih =>
    have hhead : (compile? o allowed n).bind nonempty? = some d ↔
        compile? o allowed n = some d ∧ d ≠ [] := by
      simp [Option.bind_eq_some_iff, nonempty?_eq_some_iff]
    unfold compileAll
    rw [List.exists_mem_cons_iff, ← ih, ← hhead]
    cases (compile? o allowed n).bind nonempty? <;> simp [eq_comm]

theorem ne_nil_of_mem_compileAll {ns : List Node} {d : Document}
    (h : d ∈ compileAll o allowed ns) : d ≠ [] := by
  obtain ⟨_, _, _, hne⟩ := mem_compileAll_iff.mp h
  exact hne

/-- A conjunction is one of its members, or all of them merged, or all of them under `$and`, which
merging falls back to as well. -/
theorem conjunction?_cases {compact : Bool} {docs : List Document} {d : Document}
    (h : conjunction? compact docs = some d) :
    docs ≠ [] ∧ (docs = [d] ∨ Document.mergeEntries? [] docs.flatten = some d ∨
      d = [("$and", Document.listed docs)]) := by
  unfold conjunction? at h
  split at h
  · cases h
  · cases h
    simp
  · next hne _ =>
    refine ⟨hne, ?_⟩
    split_ifs at h
    · obtain rfl := Option.some.inj h
      rcases Document.merge_cases docs with hsingle | hmerged | hapart
      · exact .inl hsingle
      · exact .inr (.inl hmerged)
      · exact .inr (.inr hapart)
    · exact .inr (.inr (Option.some.inj h).symm)

/-- Some entries never merge to nothing, since adding an entry leaves at least that one. -/
theorem ne_nil_of_mergeEntries? {entries d : Document} (hentries : entries ≠ [])
    (h : Document.mergeEntries? [] entries = some d) : d ≠ [] := by
  refine fun hd => hentries (Document.mergeEntries?_induction
    (motive := fun d seen => d = [] → seen = []) (fun _ => rfl) ?_ h hd)
  intro d d' seen key v hmerges _ hnil
  cases hmerges <;> simp at hnil

/-- A conjunction of documents with entries has entries. -/
theorem ne_nil_of_conjunction? {compact : Bool} {docs : List Document} {d : Document}
    (hdocs : ∀ e ∈ docs, e ≠ []) (h : conjunction? compact docs = some d) : d ≠ [] := by
  obtain ⟨hne, rfl | hmerged | rfl⟩ := conjunction?_cases h
  · exact hdocs d (by simp)
  · refine ne_nil_of_mergeEntries? ?_ hmerged
    obtain ⟨e, he⟩ := List.exists_mem_of_ne_nil docs hne
    intro hflatten
    exact hdocs e he (List.flatten_eq_nil_iff.mp hflatten e he)
  · simp

/-- **No term compiles to an empty document.** -/
theorem ne_nil_of_compile? {n : Node} {d : Document} (h : compile? o allowed n = some d) :
    d ≠ [] := by
  cases compile?_eq_some_iff.mp h with
  | conjunction hname hd => exact ne_nil_of_conjunction? (fun _ => ne_nil_of_mem_compileAll) hd
  | negation hname hne => exact hne
  | _ => simp

/-! ## Negations -/

/-- The groups are what a negation leaves out: each of these operators has one name, and it is one
of those that are looked for. -/
theorem isLogical_of_ofName? {name : String} {op : Operator}
    (hname : Operator.ofName? name = some op)
    (hop : op ∈ [.conjunction, .disjunction, .noneOf, .negation]) (args : List Node) :
    isLogical (.term (some name) args) := by
  have hcompare : ∀ c, op ≠ .compare c := by
    rintro c rfl
    simp at hop
  have hmem := mem_named_of_ofName? hname hcompare
  have hlogical : name ∈ [andName, orName, "nor", "not"] := by
    simp only [List.mem_cons, List.not_mem_nil, or_false] at hop
    rcases hop with rfl | rfl | rfl | rfl
    all_goals
      obtain rfl : name = _ := by simpa [Operator.named] using hmem
      decide
  unfold isLogical
  exact List.any_eq_true.mpr ⟨name, hlogical, by simp [Node.isNamed]⟩

theorem negateAll_cons (d : Document) (n : Node) (ns : List Node) :
    negateAll o allowed d (n :: ns) = negateAll o allowed
      (if isLogical n then d else d.mergeNegated ((compile? o allowed n).getD [])) ns := by
  rw [negateAll]
  split_ifs <;> rfl

/-- The complements of more arguments are added to those of the arguments before. -/
theorem negateAll_append (d : Document) (ns ms : List Node) :
    negateAll o allowed d (ns ++ ms) = negateAll o allowed (negateAll o allowed d ns) ms := by
  induction ns generalizing d with
  | nil => rw [List.nil_append, negateAll]
  | cons n ns ih =>
    rw [List.cons_append, negateAll_cons, negateAll_cons, ih]

/-- The complements of the entries of a document, added one after the other.  What is kept when
one of them is added is kept. -/
theorem mergeNegated_induction {motive : Document → Prop} {entries : Document}
    (step : ∀ d d' key v, (key, v) ∈ entries → isOperatorKey key = false →
      d.Merges key v.negated d' → motive d → motive d')
    {d : Document} (hm : motive d) : motive (d.mergeNegated entries) := by
  induction entries generalizing d with
  | nil => exact hm
  | cons entry entries ih =>
    obtain ⟨key, v⟩ := entry
    have hrest : ∀ d d' key v, (key, v) ∈ entries → isOperatorKey key = false →
        d.Merges key v.negated d' → motive d → motive d' := fun d d' key v hmem =>
      step d d' key v (List.mem_cons_of_mem _ hmem)
    unfold Document.mergeNegated
    split_ifs with hkey
    · exact ih hrest hm
    · -- A complement that collides is dropped, and the document stays as it is.
      cases hmerge : d.mergeEntry? key v.negated with
      | none => exact ih hrest hm
      | some d' =>
        have hmerges := Document.merges_of_mergeEntry? hmerge
        exact ih hrest (step d d' key v List.mem_cons_self (by simpa using hkey) hmerges hm)

theorem negateAll_induction_from {motive : Document → Prop} {args : List Node}
    (step : ∀ n ∈ args, ∀ e, isLogical n = false → compile? o allowed n = some e →
      ∀ d d' key v, (key, v) ∈ e → isOperatorKey key = false → d.Merges key v.negated d' →
      motive d → motive d')
    {d : Document} (hm : motive d) : motive (negateAll o allowed d args) := by
  induction args generalizing d with
  | nil => rwa [negateAll]
  | cons n args ih =>
    obtain ⟨hn, hargs⟩ := List.forall_mem_cons.mp step
    unfold negateAll
    split_ifs with hlogical
    · exact ih hargs hm
    · cases he : compile? o allowed n with
      | none => exact ih hargs hm
      | some e =>
        exact ih hargs (mergeNegated_induction (hn e (by simpa using hlogical) he) hm)

/-- What holds of nothing, and is kept when the complement of an entry is added, holds of a
negation.  The entry is of a term that is no group, and under a key that is no operator. -/
theorem negateAll_induction {motive : Document → Prop} {args : List Node} (nil : motive [])
    (step : ∀ n ∈ args, ∀ e, isLogical n = false → compile? o allowed n = some e →
      ∀ d d' key v, (key, v) ∈ e → isOperatorKey key = false → d.Merges key v.negated d' →
      motive d → motive d') :
    motive (negateAll o allowed [] args) :=
  negateAll_induction_from step nil

end Filter

/-! ## Operands without documents -/

namespace Value

mutual

/-- There is no document in the value. -/
def isDocumentFree : Value → Bool
  | .object _ => false
  | .array items => areDocumentFree items
  | _ => true

/-- There is no document in the values. -/
def areDocumentFree : List Value → Bool
  | [] => true
  | v :: vs => isDocumentFree v && areDocumentFree vs

end

theorem areDocumentFree_iff {vs : List Value} :
    areDocumentFree vs ↔ ∀ v ∈ vs, v.isDocumentFree := by
  induction vs with
  | nil => simp [areDocumentFree]
  | cons v vs ih => simp [areDocumentFree, ih]

end Value

namespace Node

theorem isDocumentFree_of_toValues? {ns : List Node} {vs : List Value}
    (ih : ∀ n ∈ ns, ∀ v, n.toValue? = some v → v.isDocumentFree)
    (h : toValues? ns = some vs) : ∀ v ∈ vs, v.isDocumentFree := by
  induction ns generalizing vs with
  | nil => cases h; simp
  | cons n ns ihns =>
    obtain ⟨hn, hns⟩ := List.forall_mem_cons.mp ih
    unfold toValues? at h
    split at h
    · next v vs hv hvs =>
      cases h
      exact List.forall_mem_cons.mpr ⟨hn v hv, ihns hns hvs⟩
    · cases h

/-- A tree without documents is a value without documents. -/
theorem isDocumentFree_of_toValue? {n : Node} {v : Value}
    (hn : n.allValues Value.isDocumentFree) (h : n.toValue? = some v) : v.isDocumentFree := by
  induction n generalizing v with
  | term name args => cases h
  | list items ih =>
    rw [toValue?] at h
    obtain ⟨vs, hvs, rfl⟩ := Option.map_eq_some_iff.mp h
    rw [Value.isDocumentFree, Value.areDocumentFree_iff]
    exact isDocumentFree_of_toValues? (fun m hm w =>
      ih m hm (allValues_list.mp hn m hm)) hvs
  | value w =>
    cases h
    exact allValues_value.mp hn

end Node

namespace Filter

/-- The keys of operators in the conditions of terms on a field. -/
def operatorKeys : List String :=
  ["$ne", "$lt", "$lte", "$gt", "$gte", "$in", "$nin", "$all", "$exists", "$type", "$size", "$mod",
    "$regex", "$options"]

/-- A condition is a value without documents, or a document of operators on such values. -/
inductive IsPlain : Value → Prop
  | operand {v : Value} (h : v.isDocumentFree) : IsPlain v
  | operators {d : Document} (h : ∀ e ∈ d, e.1 ∈ operatorKeys ∧ e.2.isDocumentFree) :
      IsPlain (.object d)

theorem isPlain_entry {key : String} {v : Value} (hkey : key ∈ operatorKeys)
    (hv : v.isDocumentFree) : IsPlain (.entry key v) :=
  .operators (by simpa using ⟨hkey, hv⟩)

theorem isDocumentFree_of_isNumber {v : Value} (h : v.isNumber) : v.isDocumentFree := by
  cases v <;> simp_all [Value.isNumber, Value.isDocumentFree]

theorem isDocumentFree_of_isPatternText {v : Value} (h : isPatternText v) : v.isDocumentFree := by
  cases v <;> simp_all [isPatternText, Value.isDocumentFree]

/-- The keys of operators that take any operand. -/
def freeKeys : List String :=
  ["$ne", "$lt", "$lte", "$gt", "$gte", "$exists", "$type", "$size", "$regex"]

/-- What the condition of a term on a field can be, if there are no documents in its operands. -/
inductive IsCondition : Value → Prop
  | operand {v : Value} (hv : v.isDocumentFree) : IsCondition v
  | single {key : String} {v : Value} (hkey : key ∈ freeKeys) (hv : v.isDocumentFree) :
      IsCondition (.entry key v)
  | members {key : String} {items : List Value} (hkey : key ∈ ["$in", "$nin", "$all"])
      (hne : items ≠ []) (hv : (Value.array items).isDocumentFree) :
      IsCondition (.entry key (.array items))
  | remainder {divisor rest : Value} (hdivisor : divisor.isNumber) (hrest : rest.isNumber) :
      IsCondition (.entry "$mod" (.array [divisor, rest]))
  | flagged {p : Value} {flags : String} (hp : isPatternText p) :
      IsCondition (.object [("$regex", p), ("$options", .string flags)])

/-- The comparisons that take a list are those whose operators do. -/
theorem operatorKey?_cases {c : Comparison} {key : String} (h : c.operatorKey? = some key) :
    (c.takesArray → key ∈ ["$in", "$nin", "$all"]) ∧ (c.takesArray = false → key ∈ freeKeys) := by
  cases c <;> cases h <;> decide

/-- A comparison puts its operand under its key; equality has no key. -/
theorem isCondition_of_comparisonCondition? {c : Comparison} {v w : Value}
    (hv : v.isDocumentFree) (h : comparisonCondition? c v = some w) : IsCondition w := by
  unfold comparisonCondition? at h
  split_ifs at h with hrefused
  split at h
  · next key hkey =>
    cases h
    obtain ⟨htakes, hother⟩ := operatorKey?_cases hkey
    cases harray : c.takesArray with
    | false => exact .single (hother harray) hv
    | true =>
      have hitems : isNonemptyArray v := by simpa [harray] using hrefused
      unfold isNonemptyArray at hitems
      split at hitems
      · exact .members (htakes harray) (by simpa using hitems) hv
      · cases hitems
  · cases h
    exact .operand hv

theorem isCondition_of_existenceCondition? {args : List Node} {w : Value}
    (h : existenceCondition? args = some w) : IsCondition w := by
  unfold existenceCondition? at h
  split at h <;> cases h
  · exact .single (by decide) rfl
  · exact .single (by decide) rfl

theorem isCondition_of_numericCondition? {key : String} (hkey : key ∈ freeKeys)
    {args : List Node} {w : Value} (h : numericCondition? key args = some w) :
    IsCondition w := by
  unfold numericCondition? at h
  split at h
  · split_ifs at h with hnumber
    cases h
    exact .single hkey (isDocumentFree_of_isNumber hnumber)
  · cases h

theorem isCondition_of_remainderCondition? {args : List Node} {w : Value}
    (h : remainderCondition? args = some w) : IsCondition w := by
  unfold remainderCondition? at h
  split at h
  · split_ifs at h with hnumbers
    cases h
    exact .remainder (Bool.and_eq_true_iff.mp hnumbers).1 (Bool.and_eq_true_iff.mp hnumbers).2
  · split_ifs at h with hnumbers
    cases h
    exact .remainder (Bool.and_eq_true_iff.mp hnumbers).1 (Bool.and_eq_true_iff.mp hnumbers).2
  · cases h

theorem isCondition_of_regexCondition? {args : List Node} {w : Value}
    (h : regexCondition? args = some w) : IsCondition w := by
  unfold regexCondition? at h
  split at h
  · split_ifs at h with htext
    cases h
    exact .single (by decide) (isDocumentFree_of_isPatternText htext)
  · split_ifs at h with htext
    cases h
    exact .flagged htext
  · cases h

/-- **The conditions of terms on a field**, if their operands have no documents. -/
theorem isCondition_of_condition? {op : Operator} {args : List Node} {c : Value}
    (hargs : ∀ n ∈ args, n.allValues Value.isDocumentFree) (h : condition? op args = some c) :
    IsCondition c := by
  unfold condition? at h
  split at h
  · next c' operand rest =>
    obtain ⟨v, hv, h⟩ := Option.bind_eq_some_iff.mp h
    have hfree := Node.isDocumentFree_of_toValue? (hargs operand List.mem_cons_self) hv
    exact isCondition_of_comparisonCondition? hfree h
  · exact isCondition_of_existenceCondition? h
  · exact isCondition_of_numericCondition? (by decide) h
  · exact isCondition_of_numericCondition? (by decide) h
  · exact isCondition_of_remainderCondition? h
  · exact isCondition_of_regexCondition? h
  · cases h

/-- Two numbers have no documents in them. -/
theorem isDocumentFree_pair {divisor rest : Value} (hdivisor : divisor.isNumber)
    (hrest : rest.isNumber) : (Value.array [divisor, rest]).isDocumentFree := by
  rw [Value.isDocumentFree, Value.areDocumentFree_iff]
  simpa using ⟨isDocumentFree_of_isNumber hdivisor, isDocumentFree_of_isNumber hrest⟩

theorem IsCondition.isPlain {c : Value} (h : IsCondition c) : IsPlain c := by
  have hfree : freeKeys ⊆ operatorKeys := by decide
  have hlists : ["$in", "$nin", "$all"] ⊆ operatorKeys := by decide
  cases h with
  | operand hv => exact .operand hv
  | single hkey hv => exact isPlain_entry (hfree hkey) hv
  | members hkey hne hv => exact isPlain_entry (hlists hkey) hv
  | remainder hdivisor hrest =>
    exact isPlain_entry (by decide) (isDocumentFree_pair hdivisor hrest)
  | flagged hp =>
    refine .operators (List.forall_mem_cons.mpr ⟨?_, List.forall_mem_singleton.mpr ?_⟩)
    · exact ⟨by simp [operatorKeys], isDocumentFree_of_isPatternText hp⟩
    · exact ⟨by simp [operatorKeys], rfl⟩

/-- **The condition of a term on a field is plain**, if its operands have no documents. -/
theorem isPlain_of_condition? {op : Operator} {args : List Node} {c : Value}
    (hargs : ∀ n ∈ args, n.allValues Value.isDocumentFree) (h : condition? op args = some c) :
    IsPlain c :=
  (isCondition_of_condition? hargs h).isPlain

end Filter

end ResourceQuery
