import ResourceQuery.Proofs.Filter.Meaning
import ResourceQuery.Proofs.Filter.Pruning

/-!
# Negations are complements

A negation takes the complement of each term on a field in it, and leaves out everything else.  The
complement of a condition is written with another operator: `$ne` for a bare value and back, `$in`
for `$nin` and back, `$not` for all the rest.  Atoms are open, so to call this a complement is to
ask that the choice of atoms respects these three operators.

On different paths the complements stand side by side, one for each term.  On one path they are
joined, and two complements with the same operator cannot be: the second of them is dropped, and
with it a condition that the negation was meant to make.  The same happens to a term `ne`, whose
complement is a bare value and joins nothing.

Values have no documents in them here, as in every tree that is read from text.  A document of
operators under `$ne` would lose its meaning as a value with the operator.

## Main definitions

* `Document.Complementary`: a choice of atoms that respects the operators for complements
* `Document.complemented`: the choice made to respect them
* `Document.contributing`: of some conditions on a path those whose complements are joined
* `Filter.isFieldTerm`: a term on a field

## Main results

* `Document.entryHolds_negated`: the complement of a condition holds if the condition does not
* `Document.complementary_complemented`: every choice of the other atoms can be completed
* `Filter.negateAll_filter`: a negation is about its terms on fields
* `Filter.negation_of_distinct_paths`: a negation on different paths
* `Filter.negation_on_path`: a negation on one path
-/

namespace ResourceQuery

/-- The operand of `$ne` is no document of operators, so that it stands for itself where the
operator is taken away. -/
def Value.IsReversible (v : Value) : Prop :=
  ∀ w, v = .entry "$ne" w → w.isOperatorDocument = false

/-- The operator of a document with a single one. -/
def Value.soleOperator? : Value → Option String
  | .object [(key, _)] => if isOperatorKey key then some key else none
  | _ => none

namespace Document

/-! ## Reading complements -/

/-- The choice of atoms respects the operators for complements: `$ne` is the complement of
equality, `$nin` that of `$in`, and `$not` that of the condition under it. -/
structure Complementary (τ : Atom → Bool) : Prop where
  ne : ∀ path v, τ ⟨path, some "$ne", v⟩ = !τ ⟨path, none, v⟩
  nin : ∀ path v, τ ⟨path, some "$nin", v⟩ = !τ ⟨path, some "$in", v⟩
  not : ∀ path v, isOperatorKey path = false →
    τ ⟨path, some "$not", v⟩ = !entryHolds τ path v

variable {τ : Atom → Bool} {path : String}

theorem groupMeaning?_eq_none (hpath : isOperatorKey path = false) : groupMeaning? path = none := by
  have hne : ∀ key, isOperatorKey key = true → path ≠ key := by
    intro key hkey heq
    rw [heq, hkey] at hpath
    cases hpath
  rw [groupMeaning?, if_neg (hne _ rfl), if_neg (hne _ rfl), if_neg (hne _ rfl)]

/-- A value that is no document of operators stands for equality. -/
theorem entryHolds_operand (hpath : isOperatorKey path = false) {v : Value}
    (hv : v.isOperatorDocument = false) : entryHolds τ path v = τ ⟨path, none, v⟩ := by
  cases v with
  | array items => rw [entryHolds, groupMeaning?_eq_none hpath]
  | object d =>
    rw [Value.isOperatorDocument] at hv
    rw [entryHolds, hv, if_neg Bool.false_ne_true]
  | _ => rfl

theorem entryHolds_entry {key : String} (hkey : isOperatorKey key) (v : Value) :
    entryHolds τ path (.entry key v) = τ ⟨path, some key, v⟩ := by
  simp [Value.entry, entryHolds, isOperators, hkey]

/-- **The complement of a condition** holds exactly if the condition does not. -/
theorem entryHolds_negated (hτ : Complementary τ) (hpath : isOperatorKey path = false) {v : Value}
    (hv : v.IsReversible) : entryHolds τ path v.negated = !entryHolds τ path v := by
  have hnot : ∀ w, entryHolds τ path (.entry "$not" w) = !entryHolds τ path w := by
    intro w
    rw [entryHolds_entry rfl, hτ.not path w hpath]
  have hne : ∀ w : Value, w.isOperatorDocument = false →
      entryHolds τ path (.entry "$ne" w) = !entryHolds τ path w := by
    intro w hw
    rw [entryHolds_entry rfl, hτ.ne, entryHolds_operand hpath hw]
  fun_cases Value.negated v with
  | case1 p => exact hnot _
  | case2 operand =>
    have hoperand : operand.isOperatorDocument = false := hv operand rfl
    change _ = !entryHolds τ path (.entry "$ne" operand)
    rw [hne operand hoperand, Bool.not_not]
  | case3 operand =>
    change _ = !entryHolds τ path (.entry "$in" operand)
    rw [entryHolds_entry rfl, entryHolds_entry rfl, hτ.nin]
  | case4 operand =>
    change _ = !entryHolds τ path (.entry "$nin" operand)
    rw [entryHolds_entry rfl, entryHolds_entry rfl, hτ.nin, Bool.not_not]
  | case5 | case6 => exact hnot _
  | case7 fields hfields => exact hne _ (by simpa [Value.isOperatorDocument] using hfields)
  | case8 v hpattern hobject =>
    refine hne v ?_
    cases v with
    | object fields => exact absurd rfl (hobject fields)
    | _ => rfl

/-! ## Choices of atoms that respect complements -/

/-- What an operator on a path says, if the operators for complements are read as such; `inner` is
what the operand says as a condition. -/
def signed (τ : Atom → Bool) (path key : String) (v : Value) (inner : Bool) : Bool :=
  if key = "$ne" then !τ ⟨path, none, v⟩
  else if key = "$nin" then !τ ⟨path, some "$in", v⟩
  else if key = "$not" then !inner
  else τ ⟨path, some key, v⟩

mutual

/-- What a condition on a path says, if the operators for complements are read as such. -/
def meets (τ : Atom → Bool) (path : String) : Value → Bool
  | .object d => if isOperators d then meetsAll τ path d else τ ⟨path, none, .object d⟩
  | v => τ ⟨path, none, v⟩

/-- What some operators on a path say together. -/
def meetsAll (τ : Atom → Bool) (path : String) : List (String × Value) → Bool
  | [] => true
  | (key, v) :: rest => signed τ path key v (meets τ path v) && meetsAll τ path rest

end

/-- The choice of atoms with those of the operators for complements replaced. -/
def complemented (τ : Atom → Bool) (a : Atom) : Bool :=
  match a.operator with
  | some key => signed τ a.path key a.operand (meets τ a.path a.operand)
  | none => τ a

theorem entryHolds_complemented (τ : Atom → Bool) (hpath : isOperatorKey path = false) (v : Value) :
    entryHolds (complemented τ) path v = meets τ path v := by
  cases v with
  | array items => rw [entryHolds, groupMeaning?_eq_none hpath]; rfl
  | object d =>
    have hall : (d.all fun e => complemented τ ⟨path, some e.1, e.2⟩) = meetsAll τ path d := by
      induction d with
      | nil => rfl
      | cons e d ih =>
        rw [List.all_cons, ih]
        rfl
    rw [entryHolds, meets, hall]
    rfl
  | _ => rfl

/-- **Every choice of the other atoms can be completed** to one that respects complements. -/
theorem complementary_complemented (τ : Atom → Bool) : Complementary (complemented τ) where
  ne path v := rfl
  nin path v := rfl
  not path v hpath := by
    rw [entryHolds_complemented τ hpath]
    rfl

/-! ## Adding complements -/

theorem mergeEntry?_of_notMem {d : Document} {key : String} (h : key ∉ d.keys) (v : Value) :
    d.mergeEntry? key v = some (d ++ [(key, v)]) := by
  have hlookup : d.lookup key = none := by
    rw [List.lookup_eq_none_iff]
    intro e he
    have hne : key ≠ e.1 := by
      rintro rfl
      exact h (List.mem_map_of_mem he)
    simpa using hne
  unfold mergeEntry?
  rw [hlookup]

/-- Complements on different paths are added one after the other. -/
theorem mergeNegated_of_nodup {d entries : Document} (hkeys : (d ++ entries).keys.Nodup)
    (hpaths : ∀ e ∈ entries, isOperatorKey e.1 = false) :
    d.mergeNegated entries = d ++ entries.map fun e => (e.1, e.2.negated) := by
  induction entries generalizing d with
  | nil => rw [mergeNegated, List.map_nil, List.append_nil]
  | cons e entries ih =>
    obtain ⟨path, v⟩ := e
    obtain ⟨hpath, hpaths⟩ := List.forall_mem_cons.mp hpaths
    have hfresh : path ∉ d.keys := by
      rw [keys_append, keys_cons] at hkeys
      intro hmem
      exact (List.nodup_append.mp hkeys).2.2 path hmem path List.mem_cons_self rfl
    have hnodup : ((d ++ [(path, v.negated)]) ++ entries).keys.Nodup := by
      simpa using hkeys
    rw [mergeNegated, if_neg (by simp [hpath]), mergeEntry?_of_notMem hfresh, Option.getD_some,
      ih hnodup hpaths]
    simp

theorem mergeNegated_append (d as bs : Document) :
    d.mergeNegated (as ++ bs) = (d.mergeNegated as).mergeNegated bs := by
  induction as generalizing d with
  | nil => rfl
  | cons e as ih =>
    obtain ⟨key, v⟩ := e
    rw [List.cons_append, mergeNegated, mergeNegated]
    split_ifs
    · exact ih d
    · exact ih _

/-! ## Complements on one path -/

/-- A complement is an operator with its operand, or what `$ne` stood before. -/
theorem negated_cases (v : Value) :
    (∃ key w, isOperatorKey key ∧ v.negated = .entry key w) ∨ v = .entry "$ne" v.negated := by
  fun_cases Value.negated v with
  | case2 operand => exact .inr rfl
  | case3 | case4 => exact .inl ⟨_, _, rfl, rfl⟩
  | case1 | case5 | case6 | case7 | case8 => exact .inl ⟨_, _, rfl, rfl⟩

/-- Of some conditions those whose complements join the operators on a path, `used` at first: each
of them has an operator of its own. -/
def joining (used : List String) : List Value → List Value
  | [] => []
  | v :: vs =>
    match v.negated.soleOperator? with
    | some key => if key ∈ used then joining used vs else v :: joining (used ++ [key]) vs
    | none => joining used vs

/-- The operators of the complements of some conditions. -/
def complementOperators (vs : List Value) : List (Option String) :=
  vs.map fun v => v.negated.soleOperator?

/-- Of some conditions on a path those whose complements a negation has: those that join each
other, but only the first if its complement is a bare value. -/
def contributing : List Value → List Value
  | [] => []
  | v :: vs => if v.negated.soleOperator?.isSome then joining [] (v :: vs) else [v]

theorem soleOperator?_entry {key : String} (hkey : isOperatorKey key) (v : Value) :
    (Value.entry key v).soleOperator? = some key := by
  rw [Value.entry, Value.soleOperator?, if_pos hkey]

theorem soleOperator?_eq_none {v : Value} (h : v.isOperatorDocument = false) :
    v.soleOperator? = none := by
  unfold Value.soleOperator?
  split
  · next key w => exact if_neg (by simpa [Value.isOperatorDocument, isOperators] using h)
  · rfl

/-- An operator joins others exactly if it is not among them. -/
theorem mergeEntry?_operators {ops : Document} (hops : isOperators ops) {key : String}
    (hkey : isOperatorKey key) (path : String) (v : Value) :
    mergeEntry? [(path, .object ops)] path (.entry key v) =
      if key ∈ ops.keys then none else some [(path, .object (ops ++ [(key, v)]))] := by
  have hentry : isOperators [(key, v)] := by simp [isOperators, hkey]
  have hoverlap : overlap ops [(key, v)] = decide (key ∈ ops.keys) := by
    rw [overlap, List.any_cons, List.any_nil, Bool.or_false, Bool.eq_iff_iff, decide_eq_true_iff]
    simp [keys]
  unfold mergeEntry?
  simp only [List.lookup_cons_self, Value.entry, hops, hentry, hoverlap]
  split_ifs <;> simp_all [Entries.upsert]

/-- What is no document of operators joins nothing, and nothing joins it. -/
theorem mergeEntry?_eq_none {v w : Value}
    (h : v.isOperatorDocument = false ∨ w.isOperatorDocument = false) (path : String) :
    mergeEntry? [(path, v)] path w = none := by
  unfold mergeEntry?
  simp only [List.lookup_cons_self]
  split
  · next a b => exact if_neg (by rcases h with h | h <;> simp_all [Value.isOperatorDocument])
  · rfl

/-- A bare value stays alone on its path. -/
theorem mergeNegated_bare {v : Value} (hv : v.isOperatorDocument = false) (path : String)
    (vs : List Value) : mergeNegated [(path, v)] (vs.map (path, ·)) = [(path, v)] := by
  induction vs with
  | nil => rfl
  | cons w vs ih =>
    rw [List.map_cons, mergeNegated, mergeEntry?_eq_none (.inl hv), Option.getD_none, ih, ite_self]

/-- Operators on a path together with the complements that join them. -/
theorem mergeNegated_operators (hpath : isOperatorKey path = false) {ops : Document}
    (hops : isOperators ops) {vs : List Value} (hvs : ∀ v ∈ vs, v.IsReversible) :
    ∃ w, mergeNegated [(path, .object ops)] (vs.map (path, ·)) = [(path, w)] ∧
      ∀ τ, Complementary τ → entryHolds τ path w =
        (entryHolds τ path (.object ops) &&
          (joining ops.keys vs).all fun v => !entryHolds τ path v) := by
  induction vs generalizing ops with
  | nil => exact ⟨_, rfl, fun τ _ => by simp [joining]⟩
  | cons v vs ih =>
    obtain ⟨hv, hvs⟩ := List.forall_mem_cons.mp hvs
    rw [List.map_cons, mergeNegated, if_neg (by simp [hpath]), joining]
    rcases negated_cases v with ⟨key, w, hkey, hnegated⟩ | hne
    · rw [hnegated, soleOperator?_entry hkey, mergeEntry?_operators hops hkey]
      by_cases hmem : key ∈ ops.keys
      · simpa only [if_pos hmem, Option.getD_none] using ih hops hvs
      · -- The complement has an operator of its own, and its meaning is added.
        have hentry : isOperators [(key, w)] := by simp [isOperators, hkey]
        have hjoined : isOperators (ops ++ [(key, w)]) := isOperators_append hops hentry
        obtain ⟨x, hx, hmeaning⟩ := ih hjoined hvs
        simp only [if_neg hmem, Option.getD_some]
        refine ⟨x, hx, fun τ hτ => ?_⟩
        have hcomplement : entryHolds τ path (.object [(key, w)]) = !entryHolds τ path v := by
          rw [← entryHolds_negated hτ hpath hv, hnegated]
          rfl
        rw [hmeaning τ hτ, entryHolds_append hops hentry, hcomplement, List.all_cons, keys_append,
          Bool.and_assoc]
        rfl
    · -- A bare value joins no operators, and the document stays as it is.
      have hbare : v.negated.isOperatorDocument = false := hv _ hne
      rw [soleOperator?_eq_none hbare, mergeEntry?_eq_none (.inr hbare)]
      exact ih hops hvs

/-- **Complements on one path**: those of the conditions that contribute hold together. -/
theorem mergeNegated_on_path (hpath : isOperatorKey path = false) {vs : List Value}
    (hvs : ∀ v ∈ vs, v.IsReversible) (hne : vs ≠ []) :
    ∃ w, mergeNegated [] (vs.map (path, ·)) = [(path, w)] ∧
      ∀ τ, Complementary τ →
        entryHolds τ path w = (contributing vs).all fun v => !entryHolds τ path v := by
  cases vs with
  | nil => exact absurd rfl hne
  | cons v vs =>
    obtain ⟨hv, hvs⟩ := List.forall_mem_cons.mp hvs
    rw [List.map_cons, mergeNegated, if_neg (by simp [hpath]),
      mergeEntry?_of_notMem (List.not_mem_nil), Option.getD_some, List.nil_append, contributing]
    rcases negated_cases v with ⟨key, w, hkey, hnegated⟩ | hne
    · have hentry : isOperators [(key, w)] := by simp [isOperators, hkey]
      obtain ⟨x, hx, hmeaning⟩ := mergeNegated_operators hpath hentry hvs
      refine ⟨x, by rw [hnegated]; exact hx, fun τ hτ => ?_⟩
      have hjoining : joining [] (v :: vs) = v :: joining [key] vs := by
        rw [joining, hnegated, soleOperator?_entry hkey]
        rfl
      rw [hmeaning τ hτ, hnegated, soleOperator?_entry hkey, Option.isSome_some, if_pos rfl,
        hjoining, List.all_cons, ← entryHolds_negated hτ hpath hv, hnegated]
      rfl
    · have hbare : v.negated.isOperatorDocument = false := hv _ hne
      refine ⟨_, mergeNegated_bare hbare path vs, fun τ hτ => ?_⟩
      rw [soleOperator?_eq_none hbare, entryHolds_negated hτ hpath hv]
      simp

theorem joining_sublist (used : List String) (vs : List Value) :
    List.Sublist (joining used vs) vs := by
  fun_induction joining used vs with
  | case1 => exact .slnil
  | case2 used v vs key _ _ ih => exact ih.cons v
  | case3 used v vs key _ _ ih => exact ih.cons_cons v
  | case4 used v vs _ ih => exact ih.cons v

/-- All conditions join exactly if their complements have different operators, none of them used
before. -/
theorem joining_eq_self_iff {used : List String} {vs : List Value} :
    joining used vs = vs ↔ (complementOperators vs).Nodup ∧
      ∀ op ∈ complementOperators vs, ∃ key, key ∉ used ∧ op = some key := by
  induction vs generalizing used with
  | nil => simp [joining, complementOperators]
  | cons v vs ih =>
    have hshort : ∀ used, joining used vs ≠ v :: vs := by
      intro used heq
      have hlength := (joining_sublist used vs).length_le
      rw [heq, List.length_cons] at hlength
      omega
    rw [joining, complementOperators, List.map_cons, List.nodup_cons, List.forall_mem_cons]
    cases v.negated.soleOperator? with
    | none => simpa using hshort used
    | some key =>
      by_cases hkey : key ∈ used
      · simpa [hkey] using hshort used
      · simp only [if_neg hkey, List.cons.injEq, true_and, ih, List.mem_append,
          List.mem_singleton, not_or]
        constructor
        · rintro ⟨hnodup, hfresh⟩
          refine ⟨⟨fun hmem => ?_, hnodup⟩, ⟨key, hkey, rfl⟩, fun op hop => ?_⟩
          · obtain ⟨other, hother, heq⟩ := hfresh _ hmem
            exact hother.2 (Option.some.inj heq).symm
          · obtain ⟨other, hother, heq⟩ := hfresh op hop
            exact ⟨other, hother.1, heq⟩
        · rintro ⟨⟨hnotMem, hnodup⟩, -, hfresh⟩
          refine ⟨hnodup, fun op hop => ?_⟩
          obtain ⟨other, hother, rfl⟩ := hfresh op hop
          refine ⟨other, ⟨hother, ?_⟩, rfl⟩
          rintro rfl
          exact hnotMem hop

/-- Nothing is lost exactly if there is one condition only, or if the complements have different
operators. -/
theorem contributing_eq_self_iff {vs : List Value} (hne : vs ≠ []) : contributing vs = vs ↔
    vs.length = 1 ∨ ((complementOperators vs).Nodup ∧ none ∉ complementOperators vs) := by
  cases vs with
  | nil => exact absurd rfl hne
  | cons v vs =>
    have hlength : (v :: vs).length = 1 ↔ [v] = v :: vs := by simp [eq_comm]
    rw [contributing, hlength]
    cases hkey : v.negated.soleOperator? with
    | none => simp [complementOperators, hkey]
    | some key =>
      have hsome : (∀ op ∈ complementOperators (v :: vs), ∃ key, key ∉ [] ∧ op = some key) ↔
          none ∉ complementOperators (v :: vs) := by
        constructor
        · intro hall hmem
          obtain ⟨key, -, heq⟩ := hall none hmem
          cases heq
        · intro hnone op hop
          obtain ⟨key, rfl⟩ := Option.ne_none_iff_exists'.mp fun heq => hnone (heq ▸ hop)
          exact ⟨key, List.not_mem_nil, rfl⟩
      rw [Option.isSome_some, if_pos rfl, joining_eq_self_iff, hsome]
      refine ⟨.inr, ?_⟩
      rintro (hsingle | hapart)
      · simp [← hsingle, complementOperators, hkey]
      · exact hapart

end Document

namespace Filter

open Document (Complementary complemented complementOperators contributing entryHolds
  entryHolds_negated)

variable {o : FilterOptions} {allowed : String → Bool}

/-! ## Terms on a field -/

/-- A term on a field: a comparison, or one of the other operators whose first argument is a
field. -/
def isFieldTerm : Node → Bool
  | .term (some name) _ => fieldNames.contains name
  | _ => false

/-- The path of the field that a term is on. -/
def fieldPath? : Node → Option String
  | .term _ (field :: _) => field.path?
  | _ => none

/-- The term compiles to a condition on the path of its field. -/
def HasCondition (o : FilterOptions) (allowed : String → Bool) (n : Node) (e : String × Value) :
    Prop :=
  fieldPath? n = some e.1 ∧ compile? o allowed n = some [e]

theorem isLogical_of_isFieldTerm {n : Node} (h : isFieldTerm n) : isLogical n = false := by
  unfold isFieldTerm at h
  split at h
  · next name args => exact isLogical_of_mem_fieldNames (List.contains_iff_mem.mp h) args
  · cases h

/-- What is neither a term on a field nor a group adds nothing to a negation: it compiles to
nothing, or it is program text and under an operator key. -/
theorem mergeNegated_of_not_isFieldTerm {n : Node} (hfield : isFieldTerm n = false)
    (hlogical : isLogical n = false) (d : Document) :
    d.mergeNegated ((compile? o allowed n).getD []) = d := by
  cases he : compile? o allowed n with
  | none => rfl
  | some e =>
    have hnames : ∀ {name : String} {args : List Node}, n = .term (some name) args →
        name ∉ fieldNames := by
      rintro name args rfl hmem
      rw [isFieldTerm, List.contains_iff_mem.mpr hmem] at hfield
      cases hfield
    cases compile?_eq_some_iff.mp he with
    | @onField _ op _ args _ _ hname hcondition =>
      rcases mem_fieldNames_or hname with hmem | hop
      · exact absurd hmem (hnames rfl)
      · -- Groups, negations and program text have no condition on a field.
        simp only [List.mem_cons, List.not_mem_nil, or_false] at hop
        rcases hop with rfl | rfl | rfl | rfl | rfl <;> simp [condition?] at hcondition
    | element hname =>
      rcases mem_fieldNames_or hname with hmem | hop
      · exact absurd hmem (hnames rfl)
      · simp at hop
    | script => rfl
    | conjunction hname => simp [isLogical_of_ofName? hname] at hlogical
    | disjunction hname => simp [isLogical_of_ofName? hname] at hlogical
    | noneOf hname => simp [isLogical_of_ofName? hname] at hlogical
    | negation hname => simp [isLogical_of_ofName? hname] at hlogical

/-- **A negation is about its terms on fields.**  Values, lists, groups, other negations, program
text and unknown terms in it change nothing. -/
theorem negateAll_filter (d : Document) (args : List Node) :
    negateAll o allowed d (args.filter isFieldTerm) = negateAll o allowed d args := by
  induction args generalizing d with
  | nil => rfl
  | cons n args ih =>
    rw [List.filter_cons, negateAll_cons]
    by_cases hfield : isFieldTerm n
    · rw [if_pos hfield, negateAll_cons, ih]
    · rw [if_neg hfield, ih]
      congr 1
      split_ifs with hlogical
      · rfl
      · exact (mergeNegated_of_not_isFieldTerm (by simpa using hfield) (by simpa using hlogical)
          d).symm

/-- What a term on a field compiles to: a condition from its further arguments, or conditions on
the elements of a list. -/
theorem exists_of_isFieldTerm {n : Node} {d : Document} (hfield : isFieldTerm n)
    (h : compile? o allowed n = some d) :
    ∃ name field args path condition, n = .term (some name) (field :: args) ∧
      field.path? = some path ∧ d = [(path, condition)] ∧
      ((∃ op, condition? op args = some condition) ∨
        ∃ e, condition = .entry "$elemMatch" (.object e)) := by
  have hlogical := isLogical_of_isFieldTerm hfield
  have hpath : ∀ {field : Node} {path : String}, allowedPath? allowed field = some path →
      field.path? = some path := by
    intro field path hallowed
    exact (Option.filter_eq_some_iff.mp hallowed).1
  cases compile?_eq_some_iff.mp h with
  | onField _ hcondition hallowed =>
    exact ⟨_, _, _, _, _, rfl, hpath hallowed, rfl, .inl ⟨_, hcondition⟩⟩
  | element _ _ hallowed => exact ⟨_, _, _, _, _, rfl, hpath hallowed, rfl, .inr ⟨_, rfl⟩⟩
  | script hname =>
    obtain rfl := eq_where_of_ofName? hname
    simp [isFieldTerm, fieldNames, Comparison.every, Comparison.name] at hfield
  | conjunction hname => simp [isLogical_of_ofName? hname] at hlogical
  | disjunction hname => simp [isLogical_of_ofName? hname] at hlogical
  | noneOf hname => simp [isLogical_of_ofName? hname] at hlogical
  | negation hname => simp [isLogical_of_ofName? hname] at hlogical

theorem exists_hasCondition {n : Node} (hfield : isFieldTerm n)
    (h : (compile? o allowed n).isSome) : ∃ e, HasCondition o allowed n e := by
  obtain ⟨d, hd⟩ := Option.isSome_iff_exists.mp h
  obtain ⟨name, field, args, path, condition, rfl, hpath, rfl, -⟩ := exists_of_isFieldTerm hfield hd
  exact ⟨(path, condition), hpath, hd⟩

theorem exists_conditions {ns : List Node} (hfield : ∀ n ∈ ns, isFieldTerm n)
    (h : ∀ n ∈ ns, (compile? o allowed n).isSome) :
    ∃ conditions : Document, List.Forall₂ (HasCondition o allowed) ns conditions := by
  induction ns with
  | nil => exact ⟨[], .nil⟩
  | cons n ns ih =>
    obtain ⟨hhead, htail⟩ := List.forall_mem_cons.mp hfield
    obtain ⟨hn, hns⟩ := List.forall_mem_cons.mp h
    obtain ⟨e, he⟩ := exists_hasCondition hhead hn
    obtain ⟨conditions, hconditions⟩ := ih htail hns
    exact ⟨e :: conditions, .cons he hconditions⟩

theorem map_fieldPath? {ns : List Node} {conditions : Document}
    (h : List.Forall₂ (HasCondition o allowed) ns conditions) :
    ns.map fieldPath? = conditions.keys.map some := by
  induction h with
  | nil => rfl
  | cons hn _ ih => rw [List.map_cons, Document.keys_cons, List.map_cons, hn.1, ih]

theorem exists_mem_hasCondition {ns : List Node} {conditions : Document}
    (h : List.Forall₂ (HasCondition o allowed) ns conditions) {e : String × Value}
    (he : e ∈ conditions) : ∃ n ∈ ns, HasCondition o allowed n e := by
  induction h with
  | nil => cases he
  | cons hn _ ih =>
    rcases List.mem_cons.mp he with rfl | he
    · exact ⟨_, List.mem_cons_self, hn⟩
    · obtain ⟨m, hm, hcondition⟩ := ih he
      exact ⟨m, List.mem_cons_of_mem _ hm, hcondition⟩

/-- The terms on fields in a negation add the complements of their conditions, in order. -/
theorem negateAll_eq_mergeNegated {ns : List Node} {conditions : Document}
    (hfield : ∀ n ∈ ns, isFieldTerm n)
    (h : List.Forall₂ (HasCondition o allowed) ns conditions) (d : Document) :
    negateAll o allowed d ns = d.mergeNegated conditions := by
  induction h generalizing d with
  | nil => rw [negateAll, Document.mergeNegated]
  | @cons n e ns conditions hn _ ih =>
    obtain ⟨hhead, htail⟩ := List.forall_mem_cons.mp hfield
    have hlogical : ¬ isLogical n := by simp [isLogical_of_isFieldTerm hhead]
    rw [negateAll_cons, if_neg hlogical, hn.2, Option.getD_some, ih htail,
      ← Document.mergeNegated_append]
    rfl

/-- Where operands have no documents in them, the condition of a term on a field can be
reversed. -/
theorem isReversible_of_hasCondition {n : Node} (hfield : isFieldTerm n)
    (hn : n.allValues Value.isDocumentFree) {path : String} {v : Value}
    (h : HasCondition o allowed n (path, v)) : v.IsReversible := by
  rintro w rfl
  obtain ⟨name, field, args, path', condition, rfl, -, heq, hcondition⟩ :=
    exists_of_isFieldTerm hfield h.2
  obtain ⟨-, rfl⟩ : path = path' ∧ Value.entry "$ne" w = condition := by simpa using heq
  rcases hcondition with ⟨op, hcondition⟩ | ⟨e, helement⟩
  · have hargs := fun m hm => Node.allValues_term.mp hn m (List.mem_cons_of_mem _ hm)
    have hplain := isPlain_of_condition? hargs hcondition
    generalize hentry : Value.entry "$ne" w = condition at hplain
    cases hplain with
    | operand hfree =>
      rw [← hentry] at hfree
      cases hfree
    | operators hoperators =>
      obtain rfl := Value.object.inj hentry
      have hfree := (hoperators _ (List.mem_singleton_self _)).2
      cases w with
      | object d => cases hfree
      | _ => rfl
  · simp [Value.entry] at helement

theorem compile?_not (args : List Node) : compile? o allowed (.term (some "not") args) =
    nonempty? (negateAll o allowed [] args) :=
  compile?_negation (by decide) args

/-! ## Different paths -/

/-- **A negation on different paths is the complement, term by term.**  It has one entry for each
term on a field in it, in their order and on their paths, whatever else is among its arguments; and
the condition there holds exactly if that of the term does not. -/
theorem negation_of_distinct_paths {args : List Node}
    (hfree : ∀ n ∈ args.filter isFieldTerm, n.allValues Value.isDocumentFree)
    (hcompile : ∀ n ∈ args.filter isFieldTerm, (compile? o allowed n).isSome)
    (hdistinct : ((args.filter isFieldTerm).map fieldPath?).Nodup)
    (hpaths : ∀ n ∈ args.filter isFieldTerm, ∀ path, fieldPath? n = some path →
      isOperatorKey path = false) :
    ∃ conditions : Document,
      List.Forall₂ (HasCondition o allowed) (args.filter isFieldTerm) conditions ∧
      compile? o allowed (.term (some "not") args) =
        nonempty? (conditions.map fun e => (e.1, e.2.negated)) ∧
      ∀ e ∈ conditions, ∀ τ, Complementary τ →
        entryHolds τ e.1 e.2.negated = !entryHolds τ e.1 e.2 := by
  have hfield : ∀ n ∈ args.filter isFieldTerm, isFieldTerm n := by
    intro n hn
    exact (List.mem_filter.mp hn).2
  obtain ⟨conditions, hconditions⟩ := exists_conditions hfield hcompile
  have hpath : ∀ e ∈ conditions, isOperatorKey e.1 = false := by
    intro e he
    obtain ⟨n, hn, hcondition⟩ := exists_mem_hasCondition hconditions he
    exact hpaths n hn e.1 hcondition.1
  refine ⟨conditions, hconditions, ?_, ?_⟩
  · have hkeys : conditions.keys.Nodup := by
      rw [map_fieldPath? hconditions] at hdistinct
      exact hdistinct.of_map
    have hmerge := Document.mergeNegated_of_nodup (d := []) hkeys hpath
    rw [compile?_not, ← negateAll_filter, negateAll_eq_mergeNegated hfield hconditions, hmerge,
      List.nil_append]
  · intro e he τ hτ
    obtain ⟨n, hn, hcondition⟩ := exists_mem_hasCondition hconditions he
    exact entryHolds_negated hτ (hpath e he)
      (isReversible_of_hasCondition (hfield n hn) (hfree n hn) hcondition)

/-- Terms on fields among a value, a list, groups, program text and an unknown term. -/
theorem negation_of_distinct_paths_mixed :
    ∃ conditions : Document, conditions.keys = ["a", "b", "c", "d"] ∧
      compile? { allowWhere := true } (fun _ => true) (.term (some "not") [
        .value (.bool true),
        .term (some "eq") [.value (.string "a"), .value (.number (.int 1))],
        .list [.value .null],
        .term (some "ne") [.value (.string "b"), .value .null],
        .term (some "or") [.term (some "eq") [.value (.string "a"), .value .null]],
        .term (some "in") [.value (.string "c"), .list [.value .null]],
        .term (some "where") [.value (.string "x")],
        .term (some "regex") [.value (.string "d"), .value (.string "x"), .value (.string "i")],
        .term (some "near") [.value (.string "a")]]) =
          some (conditions.map fun e => (e.1, e.2.negated)) ∧
      ∀ e ∈ conditions, ∀ τ, Complementary τ →
        entryHolds τ e.1 e.2.negated = !entryHolds τ e.1 e.2 := by
  obtain ⟨conditions, hconditions, hcompile, hcomplement⟩ :=
    @negation_of_distinct_paths { allowWhere := true } (fun _ => true) [
        .value (.bool true),
        .term (some "eq") [.value (.string "a"), .value (.number (.int 1))],
        .list [.value .null],
        .term (some "ne") [.value (.string "b"), .value .null],
        .term (some "or") [.term (some "eq") [.value (.string "a"), .value .null]],
        .term (some "in") [.value (.string "c"), .list [.value .null]],
        .term (some "where") [.value (.string "x")],
        .term (some "regex") [.value (.string "d"), .value (.string "x"), .value (.string "i")],
        .term (some "near") [.value (.string "a")]]
      (by decide) (by decide) (by decide) (by decide)
  have hkeys : conditions.keys = ["a", "b", "c", "d"] :=
    List.map_injective_iff.mpr (fun _ _ => Option.some.inj) (map_fieldPath? hconditions).symm
  refine ⟨conditions, hkeys, hcompile.trans ?_, hcomplement⟩
  cases conditions with
  | nil => cases hkeys
  | cons => rfl

/-! ## One path -/

theorem exists_conditions_on_path {ns : List Node} (hfield : ∀ n ∈ ns, isFieldTerm n)
    (h : ∀ n ∈ ns, (compile? o allowed n).isSome) {path : String}
    (hon : ∀ n ∈ ns, fieldPath? n = some path) :
    ∃ conditions : List Value,
      List.Forall₂ (HasCondition o allowed) ns (conditions.map (path, ·)) := by
  obtain ⟨entries, hentries⟩ := exists_conditions hfield h
  have hentry : ∀ e ∈ entries, (path, e.2) = e := by
    intro e he
    obtain ⟨n, hn, hcondition⟩ := exists_mem_hasCondition hentries he
    have hpath : path = e.1 := Option.some.inj ((hon n hn).symm.trans hcondition.1)
    rw [hpath]
  have hmap : (entries.map Prod.snd).map (path, ·) = entries := by
    rw [List.map_map]
    exact (List.map_congr_left hentry).trans (List.map_id entries)
  refine ⟨entries.map Prod.snd, ?_⟩
  rwa [hmap]

/-- **A negation on one path** says that the terms whose complements contribute are false, and
nothing of the others.  None is lost exactly if there is one term only, or if the complements have
different operators. -/
theorem negation_on_path {ns : List Node} (hne : ns ≠ []) (hfield : ∀ n ∈ ns, isFieldTerm n)
    (hfree : ∀ n ∈ ns, n.allValues Value.isDocumentFree)
    (hcompile : ∀ n ∈ ns, (compile? o allowed n).isSome) {path : String}
    (hon : ∀ n ∈ ns, fieldPath? n = some path) (hpath : isOperatorKey path = false) :
    ∃ conditions : List Value,
      List.Forall₂ (fun n v => compile? o allowed n = some [(path, v)]) ns conditions ∧
      (∃ w, compile? o allowed (.term (some "not") ns) = some [(path, w)] ∧
        ∀ τ, Complementary τ → entryHolds τ path w =
          (contributing conditions).all fun v => !entryHolds τ path v) ∧
      (contributing conditions = conditions ↔ conditions.length = 1 ∨
        ((complementOperators conditions).Nodup ∧ none ∉ complementOperators conditions)) := by
  obtain ⟨conditions, hconditions⟩ := exists_conditions_on_path hfield hcompile hon
  have hreversible : ∀ v ∈ conditions, v.IsReversible := by
    intro v hv
    obtain ⟨n, hn, hcondition⟩ :=
      exists_mem_hasCondition hconditions (List.mem_map_of_mem hv)
    exact isReversible_of_hasCondition (hfield n hn) (hfree n hn) hcondition
  have hsome : conditions ≠ [] := by
    rintro rfl
    exact hne (List.forall₂_nil_right_iff.mp hconditions)
  obtain ⟨w, hw, hmeaning⟩ := Document.mergeNegated_on_path hpath hreversible hsome
  refine ⟨conditions, ?_, ⟨w, ?_, hmeaning⟩, Document.contributing_eq_self_iff hsome⟩
  · exact (List.forall₂_map_right_iff.mp hconditions).imp fun _ _ h => h.2
  · rw [compile?_not, negateAll_eq_mergeNegated hfield hconditions, hw]
    rfl

/-- Of `not(a=1,a=2,a>10)` the second term is lost: the filter can hold where it is true. -/
theorem negation_on_path_lossy :
    ∃ w, compile? {} (fun _ => true) (.term (some "not") [
        .term (some "eq") [.value (.string "a"), .value (.number (.int 1))],
        .term (some "eq") [.value (.string "a"), .value (.number (.int 2))],
        .term (some "gt") [.value (.string "a"), .value (.number (.int 10))]]) = some [("a", w)] ∧
      ∃ τ, Complementary τ ∧ entryHolds τ "a" w ∧ entryHolds τ "a" (.number (.int 2)) := by
  obtain ⟨conditions, hconditions, ⟨w, hw, hmeaning⟩, -⟩ :=
    @negation_on_path {} (fun _ => true) [
        .term (some "eq") [.value (.string "a"), .value (.number (.int 1))],
        .term (some "eq") [.value (.string "a"), .value (.number (.int 2))],
        .term (some "gt") [.value (.string "a"), .value (.number (.int 10))]]
      (by simp) (by decide) (by decide) (by decide) "a" (by decide) (by decide)
  obtain rfl : conditions = [.number (.int 1), .number (.int 2),
      .entry "$gt" (.number (.int 10))] := by
    rcases hconditions with _ | ⟨h₁, _ | ⟨h₂, _ | ⟨h₃, _ | _⟩⟩⟩
    cases h₁
    cases h₂
    cases h₃
    rfl
  -- The value is 2 and nothing else is known of it.
  let τ : Atom → Bool := complemented fun a =>
    a.operator.isNone && a.operand.eqv (.number (.int 2))
  have hτ : Complementary τ := Document.complementary_complemented _
  refine ⟨w, hw, τ, hτ, ?_, rfl⟩
  rw [hmeaning τ hτ]
  rfl

end Filter

end ResourceQuery
