import Mathlib.Data.List.Forall2
import ResourceQuery.Term

/-!
# Trees, node by node

A node holds a list of nodes, so its own recursion goes through lists.  Here is the induction
over nodes with a hypothesis for every member, and the two ways to look at all of a tree that
proofs need: a test of its names and values, and equality of lists member by member.

## Main definitions

* `Node.all`: every name and every value of a tree passes a test
* `Node.allValues`: every value of a tree passes a test
* `Node.mapValues`: the tree with other values

## Main results

* `Node.induction`: a property of a node from that property of its members
* `Node.eqvList_iff`: lists of trees are equal if their members are
* `Node.eqv_self`: a tree is equal to itself if its values are
-/

namespace ResourceQuery

namespace Node

/-- Induction over a tree: a hypothesis for every argument and every item. -/
@[induction_eliminator]
theorem induction {motive : Node → Prop}
    (term : ∀ name args, (∀ n ∈ args, motive n) → motive (.term name args))
    (list : ∀ items, (∀ n ∈ items, motive n) → motive (.list items))
    (value : ∀ v, motive (.value v)) (n : Node) : motive n :=
  @Node.rec motive (fun ns => ∀ n ∈ ns, motive n) term list value
    (fun _ h => absurd h List.not_mem_nil)
    (fun _ _ hn hns => List.forall_mem_cons.mpr ⟨hn, hns⟩) n

mutual

/-- Every name and every value of the tree passes a test. -/
def all (name : Option String → Bool) (value : Value → Bool) : Node → Bool
  | .term n args => name n && allIn name value args
  | .list items => allIn name value items
  | .value v => value v

/-- Every name and every value of the trees passes a test. -/
def allIn (name : Option String → Bool) (value : Value → Bool) : List Node → Bool
  | [] => true
  | n :: ns => all name value n && allIn name value ns

end

/-- Every value of the tree passes a test. -/
def allValues (test : Value → Bool) (n : Node) : Bool := n.all (fun _ => true) test

section

variable {name : Option String → Bool} {value : Value → Bool}

/-- A test of a list of nodes is the test of each of them. -/
theorem allIn_iff {ns : List Node} : allIn name value ns ↔ ∀ n ∈ ns, n.all name value := by
  induction ns with
  | nil => simp [allIn]
  | cons n ns ih => simp [allIn, ih]

/-- The names and values of a term are its own name and those of its arguments. -/
@[simp] theorem all_term {n : Option String} {args : List Node} :
    (term n args).all name value ↔ name n ∧ ∀ m ∈ args, m.all name value := by
  simp [all, allIn_iff]

@[simp] theorem all_list {items : List Node} :
    (list items).all name value ↔ ∀ m ∈ items, m.all name value := by
  simp [all, allIn_iff]

@[simp] theorem all_value {v : Value} : (Node.value v).all name value ↔ value v := by
  simp [all]

end

@[simp] theorem allValues_term {test : Value → Bool} {n : Option String} {args : List Node} :
    (term n args).allValues test ↔ ∀ m ∈ args, m.allValues test := by
  simp [allValues]

@[simp] theorem allValues_list {test : Value → Bool} {items : List Node} :
    (list items).allValues test ↔ ∀ m ∈ items, m.allValues test := by
  simp [allValues]

@[simp] theorem allValues_value {test : Value → Bool} {v : Value} :
    (Node.value v).allValues test ↔ test v := by
  simp [allValues]

/-- A test of values follows from a stronger one, whatever is asked of names. -/
theorem allValues_of_all {name : Option String → Bool} {value test : Value → Bool}
    (h : ∀ v, value v → test v) {n : Node} (hn : n.all name value) : n.allValues test := by
  induction n with
  | term m args ih =>
    exact allValues_term.mpr fun k hk => ih k hk ((all_term.mp hn).2 k hk)
  | list items ih => exact allValues_list.mpr fun k hk => ih k hk (all_list.mp hn k hk)
  | value v => exact allValues_value.mpr (h v (all_value.mp hn))

mutual

/-- The tree with its values replaced. -/
def mapValues (f : Value → Value) : Node → Node
  | .term n args => .term n (mapValuesIn f args)
  | .list items => .list (mapValuesIn f items)
  | .value v => .value (f v)

/-- The trees with their values replaced. -/
def mapValuesIn (f : Value → Value) : List Node → List Node
  | [] => []
  | n :: ns => mapValues f n :: mapValuesIn f ns

end

section

variable {f : Value → Value}

/-- Replacing values in a list of nodes is done node by node. -/
theorem mapValuesIn_eq_map (ns : List Node) : mapValuesIn f ns = ns.map (mapValues f) := by
  induction ns with
  | nil => rfl
  | cons n ns ih => rw [mapValuesIn, ih, List.map_cons]

/-- Names stay as they are when values are replaced. -/
@[simp] theorem mapValues_term (n : Option String) (args : List Node) :
    (term n args).mapValues f = .term n (args.map (mapValues f)) := by
  rw [mapValues, mapValuesIn_eq_map]

@[simp] theorem mapValues_list (items : List Node) :
    (list items).mapValues f = .list (items.map (mapValues f)) := by
  rw [mapValues, mapValuesIn_eq_map]

@[simp] theorem mapValues_value (v : Value) : (Node.value v).mapValues f = .value (f v) := by
  rw [mapValues]

end

/-- Lists of nodes are equal if they are so one by one. -/
theorem eqvList_iff {as bs : List Node} :
    eqvList as bs ↔ List.Forall₂ (fun a b => a.eqv b = true) as bs := by
  induction as generalizing bs with
  | nil => cases bs <;> simp [eqvList]
  | cons a as ih => cases bs <;> simp [eqvList, ih]

/-- A tree is equal to itself if its values are: a NaN would not be. -/
theorem eqv_self {n : Node} (h : n.allValues fun v => v.eqv v) : n.eqv n := by
  induction n with
  | term name args ih =>
    have hargs : eqvList args args := eqvList_iff.mpr <| List.forall₂_same.mpr fun m hm =>
      ih m hm (allValues_term.mp h m hm)
    simp [eqv, hargs]
  | list items ih =>
    rw [eqv]
    exact eqvList_iff.mpr <| List.forall₂_same.mpr fun m hm => ih m hm (allValues_list.mp h m hm)
  | value v => exact allValues_value.mp h

end Node

/-- A term is determined by its node. -/
theorem Term.toNode_inj {s t : Term} (h : s.toNode = t.toNode) : s = t := by
  obtain ⟨name, args⟩ := s
  obtain ⟨name', args'⟩ := t
  obtain ⟨rfl, rfl⟩ := Node.term.inj h
  rfl

theorem Term.name_of_isNamed {t : Term} {name : String} (h : t.isNamed name) :
    t.name = some name :=
  beq_iff_eq.mp h

end ResourceQuery
