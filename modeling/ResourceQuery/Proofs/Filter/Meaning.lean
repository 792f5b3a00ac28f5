import ResourceQuery.Proofs.Filter.Compilation

/-!
# Compiled filters mean what their trees mean

A filter document is a formula over atoms, each a condition on a path.  Which atoms hold is left
open, so that documents can be compared by their structure alone.  The meaning of a tree is given
on the tree: groups combine their members, and a member that compiles to nothing has no meaning
and is left out.  Compilation merges documents, fuses operators and falls back to `$and`, and
none of it changes the meaning.

## Main definitions

* `Atom`: a condition on a path
* `Document.holds`: the meaning of a document, for a choice of the atoms that hold
* `Filter.meaning?`: the meaning of a tree

## Main results

* `Document.holds_merge`: a merged document is the conjunction of its parts
* `Filter.meaning?_eq`: the meaning of a node is that of the document it compiles to
* `Filter.holds_ofSelector`: the meaning of a selector and of an element document
-/

namespace ResourceQuery

/-- A condition on a path: an operator with its operand, or equality with a value. -/
structure Atom where
  path : String
  /-- The key of the operator; without one the condition is equality. -/
  operator : Option String
  operand : Value

namespace Document

/-- How a group key reads the documents under it; other keys are paths. -/
def groupMeaning? (key : String) : Option (List Bool → Bool) :=
  if key = "$and" then some fun bs => bs.all id
  else if key = "$or" then some fun bs => bs.any id
  else if key = "$nor" then some fun bs => !bs.any id
  else none

mutual

/-- The meaning of a document: all of its entries hold. -/
def holds (τ : Atom → Bool) : List (String × Value) → Bool
  | [] => true
  | (key, v) :: rest => entryHolds τ key v && holds τ rest

/-- The meaning of an entry: a group of documents, the operators on a path, or equality. -/
def entryHolds (τ : Atom → Bool) (key : String) : Value → Bool
  | .array items =>
    match groupMeaning? key with
    | some combine => combine (holdEach τ items)
    | none => τ ⟨key, none, .array items⟩
  | .object d =>
    if isOperators d then d.all fun e => τ ⟨key, some e.1, e.2⟩ else τ ⟨key, none, .object d⟩
  | v => τ ⟨key, none, v⟩

/-- The meanings of the documents in a list. -/
def holdEach (τ : Atom → Bool) : List Value → List Bool
  | [] => []
  | .object d :: rest => holds τ d :: holdEach τ rest
  | _ :: rest => holdEach τ rest

end

section

variable {τ : Atom → Bool}

theorem holds_eq_all (d : Document) : holds τ d = d.all fun e => entryHolds τ e.1 e.2 := by
  induction d with
  | nil => rfl
  | cons e d ih =>
    obtain ⟨key, v⟩ := e
    rw [holds, ih, List.all_cons]

theorem holds_append (a b : Document) : holds τ (a ++ b) = (holds τ a && holds τ b) := by
  rw [holds_eq_all, holds_eq_all, holds_eq_all, List.all_append]

/-- Documents that are joined hold if all of them do. -/
theorem holds_flatten (docs : List Document) : holds τ docs.flatten = docs.all (holds τ) := by
  induction docs with
  | nil => rfl
  | cons d docs ih => rw [List.flatten_cons, holds_append, ih, List.all_cons]

@[simp] theorem holds_singleton (key : String) (v : Value) :
    holds τ [(key, v)] = entryHolds τ key v := by
  simp [holds]

theorem holdEach_map_object (docs : List Document) :
    holdEach τ (docs.map .object) = docs.map (holds τ) := by
  induction docs with
  | nil => rfl
  | cons d docs ih => rw [List.map_cons, holdEach, ih, List.map_cons]

/-- A group key reads the documents listed under it. -/
theorem holds_listed {key : String} {combine : List Bool → Bool}
    (h : groupMeaning? key = some combine) (docs : List Document) :
    holds τ [(key, listed docs)] = combine (docs.map (holds τ)) := by
  rw [holds_singleton, listed, entryHolds, h, holdEach_map_object]

/-! ## Merging keeps the meaning -/

/-- Documents of operators are joined to one. -/
theorem isOperators_append {a b : Document} (ha : isOperators a) (hb : isOperators b) :
    isOperators (a ++ b) := by
  simp only [isOperators, Bool.and_eq_true, List.all_append] at ha hb ⊢
  refine ⟨?_, ha.2, hb.2⟩
  cases a <;> simp_all

/-- Operators joined on a path hold together. -/
theorem entryHolds_append {a b : Document} (ha : isOperators a) (hb : isOperators b)
    (key : String) : entryHolds τ key (.object (a ++ b)) =
      (entryHolds τ key (.object a) && entryHolds τ key (.object b)) := by
  simp only [entryHolds, ha, hb, isOperators_append ha hb, if_true, List.all_append]

/-- **Adding an entry** is asking for its condition as well. -/
theorem Merges.holds {d d' : Document} {key : String} {v : Value} (h : d.Merges key v d') :
    holds τ d' = (holds τ d && entryHolds τ key v) := by
  cases h with
  | appended hkey => rw [holds_append, holds_singleton]
  | joined hd hv ha hb hab =>
    subst hd hv
    rw [holds_append, holds_append, Document.holds, Document.holds, entryHolds_append ha hb]
    ac_rfl

/-- Documents merged into one hold together. -/
theorem holds_of_mergeEntries? {entries d : Document} (h : mergeEntries? [] entries = some d) :
    holds τ d = holds τ entries := by
  refine mergeEntries?_induction (motive := fun d seen => holds τ d = holds τ seen) rfl ?_ h
  intro d d' seen key v hmerges hseen
  rw [hmerges.holds, hseen, holds_append, holds_singleton]

/-- **A merged document is the conjunction of its parts**, whether they collide or not. -/
theorem holds_merge (docs : List Document) : holds τ (merge docs) = docs.all (holds τ) := by
  rcases merge_cases docs with hsingle | hmerged | hapart
  · rw [hsingle]
    simp [merge]
  · rw [holds_of_mergeEntries? hmerged, holds_flatten]
  · rw [hapart, holds_listed rfl, List.all_map]
    rfl

end

end Document

/-! ## The meaning of a tree -/

namespace Filter

open Document (holds holdEach)

/-- The conjunction of the meanings that there are; without any there is none. -/
def allOf? (bs : List Bool) : Option Bool := if bs.isEmpty then none else some (bs.all id)

/-- The disjunction of the meanings that there are; without any there is none. -/
def anyOf? (bs : List Bool) : Option Bool := if bs.isEmpty then none else some (bs.any id)

mutual

/-- The meaning of a node, unless it compiles to nothing: a group combines its members, and any
other term means what its own document means. -/
def meaning? (τ : Atom → Bool) (o : FilterOptions) (allowed : String → Bool) : Node → Option Bool
  | .term (some name) args =>
    match Operator.ofName? name with
    | some .conjunction => allOf? (meanings τ o allowed args)
    | some .disjunction => anyOf? (meanings τ o allowed args)
    | some .noneOf => (anyOf? (meanings τ o allowed args)).map (!·)
    | _ => (compile? o allowed (.term (some name) args)).map (holds τ)
  | _ => none

/-- The meanings of the members that have one. -/
def meanings (τ : Atom → Bool) (o : FilterOptions) (allowed : String → Bool) :
    List Node → List Bool
  | [] => []
  | n :: ns =>
    match meaning? τ o allowed n with
    | some b => b :: meanings τ o allowed ns
    | none => meanings τ o allowed ns

end

variable {τ : Atom → Bool} {o : FilterOptions} {allowed : String → Bool}

theorem conjunction?_eq (compact : Bool) (docs : List Document) :
    (conjunction? compact docs).map (holds τ) = allOf? (docs.map (holds τ)) := by
  unfold conjunction?
  split
  · rfl
  · next d => simp [allOf?]
  · next hne _ =>
    have hmeaning : allOf? (docs.map (holds τ)) = some (docs.all (holds τ)) := by
      rw [allOf?, if_neg (by simpa using hne), List.all_map]
      rfl
    rw [hmeaning]
    split_ifs
    · rw [Option.map_some, Document.holds_merge]
    · rw [Option.map_some, Document.holds_listed rfl, List.all_map]
      rfl

theorem group?_eq {key : String} {combine : List Bool → Bool}
    (h : Document.groupMeaning? key = some combine) (docs : List Document) :
    (group? key docs).map (holds τ) =
      if (docs.map (holds τ)).isEmpty then none else some (combine (docs.map (holds τ))) := by
  unfold group?
  rw [List.isEmpty_map]
  split_ifs
  · rfl
  · rw [Option.map_some, Document.holds_listed h]

/-- The meanings of the members are those of the documents they compile to. -/
theorem meanings_eq {ns : List Node}
    (h : ∀ n ∈ ns, meaning? τ o allowed n = (compile? o allowed n).map (holds τ)) :
    meanings τ o allowed ns = (compileAll o allowed ns).map (holds τ) := by
  induction ns with
  | nil => rfl
  | cons n ns ih =>
    obtain ⟨hn, hns⟩ := List.forall_mem_cons.mp h
    unfold meanings compileAll
    rw [hn, ih hns]
    cases hd : compile? o allowed n with
    | none => rfl
    | some d => simp [nonempty?, ne_nil_of_compile? hd]

/-- **The meaning of a node is that of the document it compiles to.** -/
theorem meaning?_eq (n : Node) :
    meaning? τ o allowed n = (compile? o allowed n).map (holds τ) := by
  induction n with
  | term name args ih =>
    cases name with
    | none => rfl
    | some name =>
      unfold meaning?
      split
      · next hname =>
        rw [meanings_eq ih, compile?_conjunction hname, conjunction?_eq]
      · next hname =>
        rw [meanings_eq ih, compile?_disjunction hname, group?_eq rfl]
        rfl
      · next hname =>
        rw [meanings_eq ih, compile?_noneOf hname, group?_eq rfl, anyOf?]
        split_ifs <;> rfl
      · rfl
  | list items => rfl
  | value v => rfl

theorem meaning?_conjunction (args : List Node) :
    meaning? τ o allowed (.term (some andName) args) = allOf? (meanings τ o allowed args) := by
  have hname : Operator.ofName? andName = some .conjunction := by decide
  unfold meaning?
  rw [hname]

/-- **Compilation keeps the meaning of a selector**, whatever is merged, and that of the
conditions on an element, whose paths no policy restricts.  An empty result holds. -/
theorem holds_ofSelector (τ : Atom → Bool) (o : FilterOptions) :
    (∀ t : Term, holds τ (ofSelector o t) =
      (meaning? τ o o.policy.isAllowed t.toNode).getD true) ∧
    ∀ (allowed : String → Bool) (field : Node) (conditions : List Node),
      match allOf? (meanings τ o (fun _ => true) conditions) with
      | none => compile? o allowed (.term (some "elemMatch") (field :: conditions)) = none
      | some b => ∃ d, holds τ d = b ∧
        compile? o allowed (.term (some "elemMatch") (field :: conditions)) =
          (allowedPath? allowed field).map fun path =>
            [(path, .entry "$elemMatch" (.object d))] := by
  constructor
  · intro t
    unfold ofSelector
    split_ifs with hand
    · -- At the root a conjunction is merged whatever `compactAnd` says; the meaning is the same.
      obtain ⟨name, args⟩ := t
      obtain rfl : name = some andName := by simpa [Term.isNamed] using hand
      rw [Term.toNode, meaning?_conjunction, meanings_eq fun n _ => meaning?_eq n,
        ← conjunction?_eq true]
      cases conjunction? true (compileAll o o.policy.isAllowed args) <;> rfl
    · rw [meaning?_eq]
      cases compile? o o.policy.isAllowed t.toNode <;> rfl
  · intro allowed field conditions
    have hname : Operator.ofName? "elemMatch" = some .element := by decide
    rw [meanings_eq fun n _ => meaning?_eq n, ← conjunction?_eq true, compile?_element hname,
      element?]
    cases conjunction? true (compileAll o (fun _ => true) conditions) with
    | none => rfl
    | some d => exact ⟨d, rfl, rfl⟩

end Filter

end ResourceQuery
