import ResourceQuery.Filter.StoreQuery
import ResourceQuery.Proofs.Converter.ReadBack
import ResourceQuery.Proofs.Filter.Compilation
import ResourceQuery.Proofs.Parser.Clauses

/-!
# The key of program text

Program text for the document store stands under the key `$where`.  The term `where` is left out
unless it is allowed, but the key is a word like any other, and a condition on a field of that
name compiles to the same entry.  Here is when this happens: exactly the trees are listed whose
filter has the key somewhere although no program text is allowed.

## Main definitions

* `Document.mentions`: a key of the document, or of a document in it, at any depth
* `Filter.Leaks`: a node compiles to a document with the key in it
* `Filter.Smuggles`: a tree with a condition on a field `$where` that is not left out

## Main results

* `Filter.mentions_negateAll`: the key is in a negation if one of its terms contributes it
* `Filter.leaks_of_smuggles`, `Filter.smuggles_of_leaks`: a node leaks the key if it smuggles it
* `Filter.mentions_where_iff`: the key is in the filter of a query if its selector smuggles it
-/

namespace ResourceQuery

namespace Value

mutual

/-- A document in the value has the key, at any depth. -/
def mentions (key : String) : Value → Bool
  | .array items => anyMentions key items
  | .object fields => fieldsMention key fields
  | _ => false

/-- A document in one of the values has the key. -/
def anyMentions (key : String) : List Value → Bool
  | [] => false
  | v :: vs => mentions key v || anyMentions key vs

/-- The fields or the documents in them have the key. -/
def fieldsMention (key : String) : List (String × Value) → Bool
  | [] => false
  | (k, v) :: rest => k == key || mentions key v || fieldsMention key rest

end

mutual

/-- A value without documents mentions no key. -/
theorem mentions_eq_false (key : String) :
    ∀ v : Value, v.isDocumentFree → v.mentions key = false
  | .array items, h => by
    rw [mentions]
    exact anyMentions_eq_false key items h
  | .null, _ | .undefined, _ | .bool _, _ | .number _, _ | .string _, _ | .date _, _
  | .pattern _, _ | .host _, _ => by rw [mentions] <;> simp

theorem anyMentions_eq_false (key : String) :
    ∀ vs : List Value, areDocumentFree vs → anyMentions key vs = false
  | [], _ => by rw [anyMentions]
  | v :: vs, h => by
    rw [areDocumentFree, Bool.and_eq_true] at h
    rw [anyMentions, mentions_eq_false key v h.1, anyMentions_eq_false key vs h.2, Bool.or_false]

end

end Value

/-- A key of the document or of a document in it, at any depth. -/
def Document.mentions (key : String) (d : Document) : Bool := Value.fieldsMention key d

namespace Document

variable {key : String}

/-- A document mentions its keys and what is mentioned under them. -/
theorem mentions_iff {d : Document} :
    d.mentions key ↔ ∃ e ∈ d, e.1 = key ∨ e.2.mentions key := by
  induction d with
  | nil => simp [mentions, Value.fieldsMention]
  | cons e d ih =>
    obtain ⟨k, v⟩ := e
    unfold mentions at ih ⊢
    simp [Value.fieldsMention, ih]

@[simp] theorem mentions_singleton {k : String} {v : Value} :
    mentions key [(k, v)] ↔ k = key ∨ v.mentions key := by
  simp [mentions_iff]

theorem mentions_append {a b : Document} :
    mentions key (a ++ b) ↔ a.mentions key ∨ b.mentions key := by
  simp [mentions_iff, or_and_right, exists_or]

theorem mentions_flatten {docs : List Document} :
    mentions key docs.flatten ↔ ∃ d ∈ docs, d.mentions key := by
  induction docs with
  | nil => simp [mentions_iff]
  | cons d docs ih =>
    rw [List.flatten_cons, mentions_append, ih]
    simp

theorem mentions_object {d : Document} : (Value.object d).mentions key ↔ d.mentions key := by
  rw [Value.mentions, mentions]

theorem mentions_listed {docs : List Document} :
    (listed docs).mentions key ↔ ∃ d ∈ docs, d.mentions key := by
  rw [listed, Value.mentions]
  induction docs with
  | nil => simp [Value.anyMentions]
  | cons d docs ih => simp [Value.anyMentions, ih, mentions_object]

theorem mentions_entry {k : String} {v : Value} :
    (Value.entry k v).mentions key ↔ k = key ∨ v.mentions key := by
  rw [Value.entry, mentions_object, mentions_singleton]

/-- Adding an entry adds the keys in it, and no others. -/
theorem Merges.mentions {d d' : Document} {k : String} {v : Value} (h : d.Merges k v d') :
    d'.mentions key ↔ d.mentions key ∨ k = key ∨ v.mentions key := by
  cases h with
  | appended => rw [mentions_append, mentions_singleton]
  | @joined before after a b hd hv =>
    subst hd hv
    have hcons : ∀ ops : Document, Document.mentions key ((k, .object ops) :: after) ↔
        (k = key ∨ ops.mentions key) ∨ after.mentions key := by
      intro ops
      rw [← List.singleton_append, mentions_append, mentions_singleton, mentions_object]
    rw [mentions_append, mentions_append, hcons, hcons, mentions_append, mentions_object]
    tauto

end Document

namespace Filter

open Document (mentions_listed mentions_entry mentions_object)

variable {o : FilterOptions} {allowed : String → Bool}

/-- A conjunction has the key if one of its members has it; merging loses none. -/
theorem mentions_of_conjunction? {compact : Bool} {docs : List Document} {d : Document}
    (h : conjunction? compact docs = some d) :
    d.mentions "$where" ↔ ∃ e ∈ docs, e.mentions "$where" := by
  obtain ⟨-, rfl | hmerged | rfl⟩ := conjunction?_cases h
  · simp
  · rw [← Document.mentions_flatten]
    refine Document.mergeEntries?_induction
      (motive := fun d seen => d.mentions "$where" ↔ seen.mentions "$where") Iff.rfl ?_ hmerged
    intro d d' seen key v hmerges ih
    rw [hmerges.mentions, ih, Document.mentions_append, Document.mentions_singleton]
  · rw [Document.mentions_singleton, mentions_listed]
    simp

/-- A plain condition does not mention the key of program text. -/
theorem IsPlain.not_mentions {c : Value} (h : IsPlain c) : ¬ c.mentions "$where" := by
  cases h with
  | operand hfree => simp [Value.mentions_eq_false "$where" c hfree]
  | @operators d hd =>
    rw [mentions_object, Document.mentions_iff]
    rintro ⟨e, he, hkey | hmentions⟩
    · have hmem := (hd e he).1
      rw [hkey] at hmem
      exact absurd hmem (by decide)
    · simp [Value.mentions_eq_false "$where" e.2 (hd e he).2] at hmentions

/-- The complement of a condition has the same documents in it. -/
theorem mentions_negated {v : Value} : v.negated.mentions "$where" ↔ v.mentions "$where" := by
  unfold Value.negated
  split
  · simp [mentions_entry, Value.mentions]
  · next fields =>
    split_ifs
    · split
      · -- A single operator has a complementary one, or goes under `$not`.
        next op operand =>
        rw [mentions_object, Document.mentions_singleton]
        split_ifs with hne hin hnin
        · simp [hne]
        · simp [hin, mentions_entry]
        · simp [hnin, mentions_entry]
        · simp [mentions_entry, mentions_object]
      · simp [mentions_entry]
    · simp [mentions_entry]
  · simp [mentions_entry]

/-! ## Negations -/

/-- A term that is no group compiles to a single condition. -/
theorem eq_singleton_of_compile? {n : Node} (hn : isLogical n = false) {d : Document}
    (h : compile? o allowed n = some d) : ∃ key v, d = [(key, v)] := by
  cases compile?_eq_some_iff.mp h with
  | onField => exact ⟨_, _, rfl⟩
  | conjunction hname => simp [isLogical_of_ofName? hname] at hn
  | disjunction hname => simp [isLogical_of_ofName? hname] at hn
  | noneOf hname => simp [isLogical_of_ofName? hname] at hn
  | negation hname => simp [isLogical_of_ofName? hname] at hn
  | element => exact ⟨_, _, rfl⟩
  | script => exact ⟨_, _, rfl⟩

/-- A term whose condition has the key somewhere, and whose complement is added to those so
far. -/
def Contributes (o : FilterOptions) (allowed : String → Bool) (d : Document) (n : Node) : Prop :=
  isLogical n = false ∧ ∃ path v, compile? o allowed n = some [(path, v)] ∧
    isOperatorKey path = false ∧ v.mentions "$where" ∧ (d.mergeEntry? path v.negated).isSome

/-- One more term of a negation. -/
theorem mentions_negateAll_singleton {d : Document} (n : Node) :
    (negateAll o allowed d [n]).mentions "$where" ↔
      d.mentions "$where" ∨ Contributes o allowed d n := by
  -- The term is left out as a group, compiles to nothing, is under an operator key, collides, or
  -- is added: only in the last case the document changes.
  unfold Contributes
  rw [negateAll]
  split_ifs with hlogical
  · simp [negateAll, hlogical]
  · rw [negateAll]
    cases he : compile? o allowed n with
    | none => simp [Document.mergeNegated]
    | some e =>
      obtain ⟨path, v, rfl⟩ := eq_singleton_of_compile? (by simpa using hlogical) he
      simp only [Option.getD_some, Document.mergeNegated]
      split_ifs with hkey
      · simp [hkey]
      · have hpath : path ≠ "$where" := by
          rintro rfl
          exact hkey (by decide)
        cases hmerge : d.mergeEntry? path v.negated with
        | none => simp [hmerge]
        | some d' =>
          rw [Option.getD_some, (Document.merges_of_mergeEntry? hmerge).mentions,
            mentions_negated]
          simp [hpath, hlogical, hkey, hmerge]

/-- A negation has the key exactly if one of its terms contributes it.  What a term adds depends on
the complements before it. -/
theorem mentions_negateAll {ns : List Node} :
    (negateAll o allowed [] ns).mentions "$where" ↔ ∃ before n after, ns = before ++ n :: after ∧
      Contributes o allowed (negateAll o allowed [] before) n := by
  induction ns using List.reverseRecOn with
  | nil => simp [negateAll, Document.mentions_iff]
  | append_singleton ns m ih =>
    rw [negateAll_append, mentions_negateAll_singleton, ih]
    constructor
    · rintro (⟨before, n, after, rfl, h⟩ | h)
      · exact ⟨before, n, after ++ [m], by simp, h⟩
      · exact ⟨ns, m, [], rfl, h⟩
    · rintro ⟨before, n, after, hsplit, h⟩
      rcases List.eq_nil_or_concat after with rfl | ⟨after, l, rfl⟩
      · obtain ⟨rfl, hlast⟩ := List.append_inj' hsplit rfl
        obtain rfl := List.singleton_injective hlast
        exact .inr h
      · rw [List.concat_eq_append, ← List.cons_append, ← List.append_assoc] at hsplit
        obtain ⟨rfl, -⟩ := List.append_inj' hsplit rfl
        exact .inl ⟨before, n, after, rfl, h⟩

/-- The complements so far leave room for a `$not` on a path: there is nothing on it, or
operators other than `$not`. -/
def leavesNot (d : Document) (path : String) : Bool :=
  match d.lookup path with
  | none => true
  | some (.object ops) => Document.isOperators ops && !(ops.any fun e => e.1 == "$not")
  | some _ => false

/-- A `$not` is added exactly where the complements leave room for it. -/
theorem isSome_mergeEntry?_not (d : Document) (path : String) (v : Value) :
    (d.mergeEntry? path (.entry "$not" v)).isSome ↔ leavesNot d path := by
  have hnot : Document.isOperators [("$not", v)] := by
    simp [Document.isOperators, isOperatorKey]
  unfold Document.mergeEntry? leavesNot
  cases d.lookup path with
  | none => simp
  | some current =>
    cases current with
    | object ops =>
      have hoverlap : Document.overlap ops [("$not", v)] = ops.any fun e => e.1 == "$not" := by
        simp only [Document.overlap, List.any_cons, List.any_nil, Bool.or_false]
      rw [Value.entry]
      dsimp only
      rw [hnot, hoverlap, Bool.and_true]
      split_ifs with hjoin
      · simp only [Option.isSome_some, hjoin]
      · simp only [Option.isSome_none, hjoin]
    | _ => simp

theorem negated_elemMatch (d : Document) : (Value.entry "$elemMatch" (.object d)).negated =
    .entry "$not" (.entry "$elemMatch" (.object d)) := by
  simp [Value.entry, Value.negated, Document.isOperators, isOperatorKey]

/-- A tree with a condition on a field `$where` that is not left out. -/
inductive Smuggles (o : FilterOptions) : (String → Bool) → Node → Prop
  /-- A term on the field, with the arguments it needs. -/
  | onField {allowed : String → Bool} {name : String} {op : Operator} {field : Node}
      {args : List Node} (hname : Operator.ofName? name = some op)
      (hpath : allowedPath? allowed field = some "$where") (hargs : (condition? op args).isSome) :
      Smuggles o allowed (.term (some name) (field :: args))
  /-- Conditions on the elements of the field, some of which compile. -/
  | onElement {allowed : String → Bool} {name : String} {field : Node} {conditions : List Node}
      (hname : Operator.ofName? name = some .element)
      (hpath : allowedPath? allowed field = some "$where")
      (hconditions : compileAll o (fun _ => true) conditions ≠ []) :
      Smuggles o allowed (.term (some name) (field :: conditions))
  /-- A member of a group. -/
  | member {allowed : String → Bool} {name : String} {op : Operator} {args : List Node} {n : Node}
      (hname : Operator.ofName? name = some op)
      (hop : op ∈ [.conjunction, .disjunction, .noneOf]) (hn : n ∈ args)
      (h : Smuggles o allowed n) : Smuggles o allowed (.term (some name) args)
  /-- A condition on the elements of an allowed field; there no path is rejected. -/
  | condition {allowed : String → Bool} {name path : String} {field : Node}
      {conditions : List Node} {n : Node} (hname : Operator.ofName? name = some .element)
      (hpath : allowedPath? allowed field = some path) (hn : n ∈ conditions)
      (h : Smuggles o (fun _ => true) n) :
      Smuggles o allowed (.term (some name) (field :: conditions))
  /-- Such conditions below a negation, which the terms before them leave room for. -/
  | negated {allowed : String → Bool} {name inner path : String} {field : Node}
      {before after conditions : List Node} {n : Node}
      (hname : Operator.ofName? name = some .negation)
      (hinner : Operator.ofName? inner = some .element)
      (hpath : allowedPath? allowed field = some path) (hkey : isOperatorKey path = false)
      (hroom : leavesNot (negateAll o allowed [] before) path) (hn : n ∈ conditions)
      (h : Smuggles o (fun _ => true) n) :
      Smuggles o allowed (.term (some name)
        (before ++ .term (some inner) (field :: conditions) :: after))

/-! ## Smuggling -/

theorem exists_conjunction? (compact : Bool) {docs : List Document} (h : docs ≠ []) :
    ∃ d, conjunction? compact docs = some d := by
  unfold conjunction?
  split
  · exact absurd rfl h
  · exact ⟨_, rfl⟩
  · split_ifs
    · exact ⟨_, rfl⟩
    · exact ⟨_, rfl⟩

/-- The node compiles to a document that has the key of program text in it. -/
def Leaks (o : FilterOptions) (allowed : String → Bool) (n : Node) : Prop :=
  ∃ d, compile? o allowed n = some d ∧ d.mentions "$where"

/-- A member of a group mentions program text if an argument leaks it. -/
theorem exists_mem_compileAll_iff {ns : List Node} :
    (∃ d ∈ compileAll o allowed ns, d.mentions "$where") ↔ ∃ n ∈ ns, Leaks o allowed n := by
  constructor
  · rintro ⟨d, hd, hmentions⟩
    obtain ⟨n, hn, hcompile, -⟩ := mem_compileAll_iff.mp hd
    exact ⟨n, hn, d, hcompile, hmentions⟩
  · rintro ⟨n, hn, d, hcompile, hmentions⟩
    exact ⟨d, mem_compileAll_iff.mpr ⟨n, hn, hcompile, ne_nil_of_compile? hcompile⟩, hmentions⟩

/-- A conjunction leaks what its arguments leak. -/
theorem leaks_conjunction_iff {name : String} (hname : Operator.ofName? name = some .conjunction)
    (args : List Node) :
    Leaks o allowed (.term (some name) args) ↔ ∃ n ∈ args, Leaks o allowed n := by
  rw [← exists_mem_compileAll_iff, Leaks, compile?_conjunction hname]
  constructor
  · rintro ⟨d, hd, hmentions⟩
    exact (mentions_of_conjunction? hd).mp hmentions
  · rintro ⟨e, he, hmentions⟩
    obtain ⟨d, hd⟩ := exists_conjunction? o.compactAnd (List.ne_nil_of_mem he)
    exact ⟨d, hd, (mentions_of_conjunction? hd).mpr ⟨e, he, hmentions⟩⟩

theorem leaks_group_iff {name key : String} {args : List Node} (hkey : key ≠ "$where")
    (h : compile? o allowed (.term (some name) args) = group? key (compileAll o allowed args)) :
    Leaks o allowed (.term (some name) args) ↔ ∃ n ∈ args, Leaks o allowed n := by
  rw [← exists_mem_compileAll_iff, Leaks, h]
  constructor
  · rintro ⟨d, hd, hmentions⟩
    obtain ⟨-, rfl⟩ := group?_eq_some_iff.mp hd
    simpa [hkey, mentions_listed] using hmentions
  · rintro ⟨e, he, hmentions⟩
    refine ⟨_, group?_eq_some_iff.mpr ⟨List.ne_nil_of_mem he, rfl⟩, ?_⟩
    rw [Document.mentions_singleton, mentions_listed]
    exact .inr ⟨e, he, hmentions⟩

/-- Conditions on an element leak by the path they are on, or by one of them. -/
theorem leaks_element_iff {name : String} (hname : Operator.ofName? name = some .element)
    (field : Node) (conditions : List Node) :
    Leaks o allowed (.term (some name) (field :: conditions)) ↔
      ∃ path, allowedPath? allowed field = some path ∧
        compileAll o (fun _ => true) conditions ≠ [] ∧
        (path = "$where" ∨ ∃ n ∈ conditions, Leaks o (fun _ => true) n) := by
  rw [← exists_mem_compileAll_iff, Leaks, compile?_element hname, element?]
  constructor
  · rintro ⟨d, hd, hmentions⟩
    obtain ⟨e, he, hd⟩ := Option.bind_eq_some_iff.mp hd
    obtain ⟨path, hpath, rfl⟩ := onPath?_eq_some_iff.mp hd
    refine ⟨path, hpath, (conjunction?_cases he).1, ?_⟩
    rw [← mentions_of_conjunction? he]
    simpa [mentions_entry, mentions_object] using hmentions
  · rintro ⟨path, hpath, hne, hleaks⟩
    obtain ⟨e, he⟩ := exists_conjunction? true hne
    rw [← mentions_of_conjunction? he] at hleaks
    refine ⟨[(path, .entry "$elemMatch" (.object e))], ?_, ?_⟩
    · rw [he, Option.bind_some]
      exact onPath?_eq_some_iff.mpr ⟨path, hpath, rfl⟩
    · simpa [mentions_entry, mentions_object] using hleaks

theorem compileAll_ne_nil_of_leaks {ns : List Node} {n : Node} (hn : n ∈ ns)
    (h : Leaks o allowed n) : compileAll o allowed ns ≠ [] := by
  obtain ⟨d, hd, -⟩ := exists_mem_compileAll_iff.mpr ⟨n, hn, h⟩
  exact List.ne_nil_of_mem hd

/-- Conditions on an element below a negation contribute what leaks in them. -/
theorem contributes_element {d : Document} {name path : String} {field n : Node}
    {conditions : List Node} (hname : Operator.ofName? name = some .element)
    (hpath : allowedPath? allowed field = some path) (hkey : isOperatorKey path = false)
    (hroom : leavesNot d path) (hn : n ∈ conditions) (h : Leaks o (fun _ => true) n) :
    Contributes o allowed d (.term (some name) (field :: conditions)) := by
  obtain rfl : name = "elemMatch" := by
    simpa [Operator.named] using mem_named_of_ofName? hname (by simp)
  obtain ⟨e, he⟩ := exists_conjunction? true (compileAll_ne_nil_of_leaks hn h)
  refine ⟨rfl, path, .entry "$elemMatch" (.object e), ?_, hkey, ?_, ?_⟩
  · exact compile?_eq_some_iff.mpr (.element hname he hpath)
  · rw [mentions_entry, mentions_object, mentions_of_conjunction? he]
    exact .inr (exists_mem_compileAll_iff.mpr ⟨n, hn, h⟩)
  · rw [negated_elemMatch, isSome_mergeEntry?_not]
    exact hroom

/-- What is smuggled leaks. -/
theorem leaks_of_smuggles {n : Node} (h : Smuggles o allowed n) : Leaks o allowed n := by
  induction h with
  | onField hname hpath hargs =>
    obtain ⟨c, hc⟩ := Option.isSome_iff_exists.mp hargs
    exact ⟨_, compile?_eq_some_iff.mpr (.onField hname hc hpath), by simp⟩
  | onElement hname hpath hconditions =>
    exact (leaks_element_iff hname _ _).mpr ⟨_, hpath, hconditions, .inl rfl⟩
  | @member allowed name op args n hname hop hn _ ih =>
    simp only [List.mem_cons, List.not_mem_nil, or_false] at hop
    rcases hop with rfl | rfl | rfl
    · exact (leaks_conjunction_iff hname args).mpr ⟨n, hn, ih⟩
    · exact (leaks_group_iff (by decide) (compile?_disjunction hname args)).mpr ⟨n, hn, ih⟩
    · exact (leaks_group_iff (by decide) (compile?_noneOf hname args)).mpr ⟨n, hn, ih⟩
  | condition hname hpath hn _ ih =>
    exact (leaks_element_iff hname _ _).mpr
      ⟨_, hpath, compileAll_ne_nil_of_leaks hn ih, .inr ⟨_, hn, ih⟩⟩
  | @negated allowed name inner path field before after conditions n hname hinner hpath hkey hroom
      hn _ ih =>
    have hmentions := mentions_negateAll.mpr
      ⟨before, _, after, rfl, contributes_element hinner hpath hkey hroom hn ih⟩
    refine ⟨_, compile?_eq_some_iff.mpr (.negation hname ?_), hmentions⟩
    intro hnil
    rw [hnil] at hmentions
    simp [Document.mentions_iff] at hmentions

/-- Conditions on an element smuggle the key by the path they are on, or by one of them. -/
theorem Smuggles.of_element {name : String} (hname : Operator.ofName? name = some .element)
    {field : Node} {conditions : List Node}
    (h : Smuggles o allowed (.term (some name) (field :: conditions))) :
    allowedPath? allowed field = some "$where" ∨
      ∃ m ∈ conditions, Smuggles o (fun _ => true) m := by
  generalize hargs : field :: conditions = args at h
  cases h with
  | onField hname' hpath hcondition =>
    obtain rfl := Option.some.inj (hname.symm.trans hname')
    simp [condition?] at hcondition
  | onElement _ hpath _ =>
    obtain ⟨rfl, -⟩ := List.cons_eq_cons.mp hargs
    exact .inl hpath
  | member hname' hop =>
    obtain rfl := Option.some.inj (hname.symm.trans hname')
    simp at hop
  | condition _ _ hm hsmuggles =>
    obtain ⟨-, rfl⟩ := List.cons_eq_cons.mp hargs
    exact .inr ⟨_, hm, hsmuggles⟩
  | negated hname' => cases hname.symm.trans hname'

/-- What contributes to a negation are conditions on an element, one of which smuggles the key.  A
term that is no group is on a field, on elements or program text; the first has a plain condition,
and the last is not allowed. -/
theorem exists_of_contributes {d : Document} {n : Node}
    (hn : n.allValues Value.isDocumentFree) (ho : o.allowWhere = false)
    (ih : ∀ {allowed}, Leaks o allowed n → Smuggles o allowed n)
    (h : Contributes o allowed d n) :
    ∃ name path field conditions m, n = .term (some name) (field :: conditions) ∧
      Operator.ofName? name = some .element ∧ allowedPath? allowed field = some path ∧
      isOperatorKey path = false ∧ leavesNot d path ∧ m ∈ conditions ∧
      Smuggles o (fun _ => true) m := by
  obtain ⟨hlogical, path, v, hcompile, hkey, hmentions, hroom⟩ := h
  have hleaks : Leaks o allowed n := ⟨_, hcompile, by simp [hmentions]⟩
  have hwhere : path ≠ "$where" := by
    rintro rfl
    exact absurd hkey (by decide)
  generalize he : [(path, v)] = e at hcompile
  cases compile?_eq_some_iff.mp hcompile with
  | onField hname hcondition hpath =>
    obtain ⟨rfl, rfl⟩ : path = _ ∧ v = _ := by simpa using he
    have hargs := fun m hm => Node.allValues_term.mp hn m (List.mem_cons_of_mem _ hm)
    exact absurd hmentions (isPlain_of_condition? hargs hcondition).not_mentions
  | conjunction hname => simp [isLogical_of_ofName? hname] at hlogical
  | disjunction hname => simp [isLogical_of_ofName? hname] at hlogical
  | noneOf hname => simp [isLogical_of_ofName? hname] at hlogical
  | negation hname => simp [isLogical_of_ofName? hname] at hlogical
  | @element name field conditions path' e hname hd hpath =>
    obtain ⟨rfl, rfl⟩ : path = path' ∧ v = _ := by simpa using he
    rw [negated_elemMatch, isSome_mergeEntry?_not] at hroom
    rcases (ih hleaks).of_element hname with hpath' | ⟨m, hm, hsmuggles⟩
    · exact absurd (Option.some.inj (hpath.symm.trans hpath')) hwhere
    · exact ⟨name, path, field, conditions, m, rfl, hname, hpath, hkey, hroom, hm, hsmuggles⟩
  | script hname hallow => simp [ho] at hallow

/-- What leaks was smuggled, if no program text is allowed and no operand is a document. -/
theorem smuggles_of_leaks (ho : o.allowWhere = false) {n : Node}
    (hn : n.allValues Value.isDocumentFree) (h : Leaks o allowed n) : Smuggles o allowed n := by
  induction n generalizing allowed with
  | term name args ih =>
    have hargs := Node.allValues_term.mp hn
    obtain ⟨d, hcompile, hmentions⟩ := id h
    cases compile?_eq_some_iff.mp hcompile with
    | onField hname hcondition hpath =>
      have hplain := isPlain_of_condition?
        (fun m hm => hargs m (List.mem_cons_of_mem _ hm)) hcondition
      obtain rfl | hmentions := Document.mentions_singleton.mp hmentions
      · exact .onField hname hpath (by simp [hcondition])
      · exact absurd hmentions hplain.not_mentions
    | conjunction hname =>
      obtain ⟨m, hm, hleaks⟩ := (leaks_conjunction_iff hname args).mp h
      exact .member hname (by simp) hm (ih m hm (hargs m hm) hleaks)
    | disjunction hname =>
      obtain ⟨m, hm, hleaks⟩ :=
        (leaks_group_iff (by decide) (compile?_disjunction hname args)).mp h
      exact .member hname (by simp) hm (ih m hm (hargs m hm) hleaks)
    | noneOf hname =>
      obtain ⟨m, hm, hleaks⟩ := (leaks_group_iff (by decide) (compile?_noneOf hname args)).mp h
      exact .member hname (by simp) hm (ih m hm (hargs m hm) hleaks)
    | negation hname =>
      obtain ⟨before, m, after, rfl, hcontributes⟩ := mentions_negateAll.mp hmentions
      have hm : m ∈ before ++ m :: after := by simp
      obtain ⟨inner, path, field, conditions, k, rfl, hinner, hpath, hkey, hroom, hk, hsmuggles⟩ :=
        exists_of_contributes (hargs m hm) ho (ih m hm (hargs m hm)) hcontributes
      exact .negated hname hinner hpath hkey hroom hk hsmuggles
    | @element name field conditions path d hname hd hpath =>
      obtain ⟨path', hpath', hne, rfl | ⟨m, hm, hleaks⟩⟩ :=
        (leaks_element_iff hname field conditions).mp h
      · exact .onElement hname hpath' hne
      · have hmem := List.mem_cons_of_mem field hm
        exact .condition hname hpath' hm (ih m hmem (hargs m hmem) hleaks)
    | script hname hallow => simp [ho] at hallow
  | list items =>
    obtain ⟨d, hd, -⟩ := h
    cases hd
  | value v =>
    obtain ⟨d, hd, -⟩ := h
    cases hd

/-! ## Queries -/

/-- The filter mentions program text if the selector leaks it. -/
theorem mentions_ofSelector (t : Term) :
    (ofSelector o t).mentions "$where" ↔ Leaks o o.policy.isAllowed t.toNode := by
  unfold ofSelector
  split_ifs with hand
  · obtain ⟨name, args⟩ := t
    obtain rfl : name = some andName := by simpa [Term.isNamed] using hand
    have hname : Operator.ofName? andName = some .conjunction := by decide
    rw [Term.toNode, leaks_conjunction_iff hname, ← exists_mem_compileAll_iff]
    cases hdocs : conjunction? true (compileAll o o.policy.isAllowed args) with
    | none =>
      have hnil : compileAll o o.policy.isAllowed args = [] := by
        by_contra hne
        obtain ⟨d, hd⟩ := exists_conjunction? true hne
        simp [hd] at hdocs
      simp [hnil, Document.mentions_iff]
    | some d => exact mentions_of_conjunction? hdocs
  · unfold Leaks
    cases compile? o o.policy.isAllowed t.toNode with
    | none => simp [Document.mentions_iff]
    | some d => simp

end Filter

theorem Parser.parse_of_parseQuery {p : Parser} {text : String} {q : Query}
    (h : p.parseQuery text = .ok q) : p.parse text = .ok q.selector := by
  obtain ⟨⟨t, clauses⟩, hrun, rfl⟩ := exists_of_map_eq_ok h
  rw [Parser.parse, hrun, Query.selector_ofClauses]
  rfl

namespace Filter

theorem isDocumentFree_of_isReadable {v : Value} (h : v.isReadable) : v.isDocumentFree := by
  cases v <;> simp_all [Value.isReadable, Value.isDocumentFree]

/-- **When a filter has the key of program text although none is allowed:** exactly if the
selector has a condition on a field of that name which is not left out. -/
theorem mentions_where_iff {text : String} {q : Query} (h : parseQuery text = .ok q)
    {o : FilterOptions} (ho : o.allowWhere = false) :
    (q.compile o).selector.mentions "$where" ↔
      Smuggles o o.policy.isAllowed q.selector.toNode := by
  have hparse := Parser.parse_of_parseQuery h
  have hall := (Parser.shaped_of_parse (Parser.gives_isReadable rfl rfl) hparse).1
  have hfree : q.selector.toNode.allValues Value.isDocumentFree :=
    Node.allValues_of_all (fun _ => isDocumentFree_of_isReadable) hall
  refine (mentions_ofSelector q.selector).trans ⟨smuggles_of_leaks ho hfree, leaks_of_smuggles⟩

/-- Program text under a field of that name: the filter has it, allowed or not. -/
theorem mentions_where_field :
    ∃ q, parseQuery "$where=sleep%281000%29" = .ok q ∧ ({} : FilterOptions).allowWhere = false ∧
      (q.compile {}).selector.mentions "$where" ∧
      Smuggles {} ({} : FilterOptions).policy.isAllowed q.selector.toNode := by
  have hparse : parseQuery "$where=sleep%281000%29" = .ok { selector := Term.and [
      .term (some "eq") [.value (.string "$where"), .value (.string "sleep(1000)")]] } := by
    with_unfolding_all rfl
  have hsmuggles : Smuggles {} ({} : FilterOptions).policy.isAllowed (Term.toNode (Term.and [
      .term (some "eq") [.value (.string "$where"), .value (.string "sleep(1000)")]])) :=
    .member rfl (by simp) (List.mem_singleton_self _) (.onField rfl rfl rfl)
  exact ⟨_, hparse, rfl, (mentions_where_iff hparse rfl).mpr hsmuggles, hsmuggles⟩

end Filter

end ResourceQuery
