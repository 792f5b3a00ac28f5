import ResourceQuery.Json.View
import ResourceQuery.Proofs.Json.Text
import ResourceQuery.Proofs.Parser.Conservation
import ResourceQuery.Query.Basic

/-!
# The JSON view loses nothing

Trees of the default dialect with the same JSON text are equal.  The text determines the JSON, so
what is left is that the JSON determines the tree.  Values that JSON has no type for share its
objects with the terms, and their keys keep them apart: a value is read back from its JSON, and
nothing is read from the JSON of a term or a list.

Documents and host values are not read back, but no text denotes one.  A date is shown by its
milliseconds, so only dates that are whole milliseconds are read back.

## Main definitions

* `Json.value?`: the value that a JSON value shows
* `Value.IsShown`: a value is shown by JSON that determines it

## Main results

* `Value.isShown_of_isReadable`: the values of the built-in converters are shown
* `Node.toJson_inj`: a tree of shown values is determined by its JSON
* `Term.eq_of_compact_toJson`: parsed trees with the same JSON text are equal
-/

namespace ResourceQuery

/-! ## Values -/

/-- The value that a JSON value shows, if it is neither a term nor a list. -/
def Json.value? : Json → Option Value
  | null => some .null
  | bool b => some (.bool b)
  | int n => (int64? n).map fun i => .number (.int i)
  | float x => some (.number (.float x))
  | string s => some (.string s)
  | object [("$undefined", bool true)] => some .undefined
  | object [("$numberDouble", string "Infinity")] => some (.number (.float (.infinity false)))
  | object [("$numberDouble", string "-Infinity")] => some (.number (.float (.infinity true)))
  | object [("$date", int n)] => (Instant.ofMillis? n).map .date
  | object [("$regularExpression", object [("pattern", string s), ("options", string f)])] =>
    some (.pattern ⟨s, f⟩)
  | _ => none

namespace Value

/-- The value is read back from its JSON, which has finite numbers only. -/
structure IsShown (v : Value) : Prop where
  isFinite : v.toJson.IsFinite
  value?_toJson : v.toJson.value? = some v

theorem isShown_infinity (negative : Bool) :
    (number (.float (.infinity negative))).IsShown := by
  cases negative with
  | true => exact ⟨.object (by simp), rfl⟩
  | false => exact ⟨.object (by simp), rfl⟩

/-- **A value that a built-in converter gives is shown by its JSON**, if it is no date between two
milliseconds. -/
theorem isShown_of_isReadable {v : Value} (hv : v.isReadable) (ht : v.isTimely) : v.IsShown := by
  cases v with
  | null => exact ⟨.null, rfl⟩
  | undefined => exact ⟨.object (by simp), rfl⟩
  | bool b => exact ⟨.bool b, rfl⟩
  | number n =>
    cases n with
    | int i =>
      refine ⟨.int _, ?_⟩
      change (int64? i.toInt).map _ = _
      rw [int64?_toInt, Option.map_some]
    | float x =>
      by_cases hfinite : x.isFinite
      · have hjson : (number (.float x)).toJson = .float x := if_pos hfinite
        exact ⟨hjson ▸ .float hfinite, by rw [hjson]; rfl⟩
      · rw [Binary64.eq_infinity hfinite (by simpa [isReadable] using hv)]
        exact isShown_infinity x.negative
  | string s => exact ⟨.string s, rfl⟩
  | date t =>
    refine ⟨.object (by simp), ?_⟩
    change (Instant.ofMillis? t.millis).map _ = _
    rw [Instant.ofMillis?_millis hv ht, Option.map_some]
  | pattern p =>
    have hobject : Json.IsFinite
        (.object [("pattern", .string p.source), ("options", .string p.flags)]) :=
      .object (by simp)
    exact ⟨.object (by simpa using hobject), rfl⟩
  | array items => cases hv
  | object fields => cases hv
  | host h => cases hv

/-- A readable value equals itself, since it is no `NaN`. -/
theorem eqv_self {v : Value} (hv : v.isReadable) : v.eqv v = true := by
  cases v with
  | number n =>
    cases n with
    | int i => simp [eqv, Number.numEq]
    | float x =>
      rw [eqv, Number.numEq, Number.toBinary64]
      · exact Binary64.numEq_self (by simpa [isReadable] using hv)
      · simp
  | array items => cases hv
  | object fields => cases hv
  | host h => cases hv
  | _ => simp [eqv]

end Value

/-! ## Trees -/

namespace Json

theorem value?_ofTerm (name : Option String) (args : List Json) :
    (ofTerm name args).value? = none := by
  cases name <;> rfl

/-- The JSON of a term determines its name and its arguments. -/
theorem ofTerm_inj {m n : Option String} {as bs : List Json} (h : ofTerm m as = ofTerm n bs) :
    m = n ∧ as = bs := by
  cases m <;> cases n <;> simp_all [ofTerm]

end Json

namespace Node

theorem toJsonList_eq_map (ns : List Node) : toJsonList ns = ns.map toJson := by
  induction ns with
  | nil => rfl
  | cons n ns ih => rw [toJsonList, ih, List.map_cons]

theorem isFinite_toJson {n : Node} (h : ∀ v ∈ n.leaves, v.IsShown) : n.toJson.IsFinite := by
  have hlist : ∀ ns : List Node, (∀ m ∈ ns, (∀ v ∈ m.leaves, v.IsShown) → m.toJson.IsFinite) →
      (∀ v ∈ ns.flatMap leaves, v.IsShown) → (Json.array (toJsonList ns)).IsFinite := by
    intro ns ih hns
    refine .array fun j hj => ?_
    rw [toJsonList_eq_map] at hj
    obtain ⟨m, hm, rfl⟩ := List.mem_map.mp hj
    exact ih m hm fun v hv => hns v (List.mem_flatMap_of_mem hm hv)
  induction n with
  | term name args ih =>
    have hargs := hlist args ih (leaves_term name args ▸ h)
    cases name with
    | none => exact .object (by simp [hargs])
    | some n => exact .object (by simp [hargs])
  | list items ih => exact hlist items ih (leaves_list items ▸ h)
  | value v => exact (h v (by simp)).isFinite

theorem toJsonList_inj {ms ns : List Node} (hms : ∀ v ∈ ms.flatMap leaves, v.IsShown)
    (hns : ∀ v ∈ ns.flatMap leaves, v.IsShown)
    (hinj : ∀ m ∈ ms, ∀ {n}, (∀ v ∈ m.leaves, v.IsShown) → (∀ v ∈ n.leaves, v.IsShown) →
      m.toJson = n.toJson → m = n) (h : toJsonList ms = toJsonList ns) : ms = ns := by
  induction ms generalizing ns with
  | nil =>
    cases ns with
    | nil => rfl
    | cons n ns => cases h
  | cons m ms ih =>
    cases ns with
    | nil => cases h
    | cons n ns =>
      rw [List.flatMap_cons, List.forall_mem_append] at hms hns
      obtain ⟨hhead, htail⟩ := List.cons.inj h
      obtain rfl := hinj m (by simp) hms.1 hns.1 hhead
      rw [ih hms.2 hns.2 (fun k hk => hinj k (List.mem_cons_of_mem _ hk)) htail]

/-- **A tree of shown values is determined by its JSON.** -/
theorem toJson_inj {m n : Node} (hm : ∀ v ∈ m.leaves, v.IsShown) (hn : ∀ v ∈ n.leaves, v.IsShown)
    (h : m.toJson = n.toJson) : m = n := by
  have hvalue : ∀ {v : Value} {j : Json}, v.IsShown → j.value? = none → v.toJson ≠ j := by
    rintro v j hv hj rfl
    exact absurd (hj.symm.trans hv.value?_toJson) (by simp)
  induction m generalizing n with
  | term name args ih =>
    rw [leaves_term] at hm
    cases n with
    | term name' args' =>
      rw [leaves_term] at hn
      obtain ⟨rfl, hargs⟩ := Json.ofTerm_inj h
      rw [toJsonList_inj hm hn ih hargs]
    | list items => cases h
    | value v => exact absurd h.symm (hvalue (hn v (by simp)) (Json.value?_ofTerm _ _))
  | list items ih =>
    rw [leaves_list] at hm
    cases n with
    | term name args => cases h
    | list items' =>
      rw [leaves_list] at hn
      rw [toJsonList_inj hm hn ih (Json.array.inj h)]
    | value v => exact absurd h.symm (hvalue (hn v (by simp)) rfl)
  | value v =>
    have hv := hm v (by simp)
    cases n with
    | term name args => exact absurd h (hvalue hv (Json.value?_ofTerm _ _))
    | list items => exact absurd h (hvalue hv rfl)
    | value w =>
      have hw := (hn w (by simp)).value?_toJson
      rw [← show v.toJson = w.toJson from h, hv.value?_toJson] at hw
      rw [Option.some.inj hw]

end Node

/-! ## Parsed trees -/

/-- What is known of the values of a parsed tree. -/
theorem isShown_of_parse {text : String} {t : Term} (h : parse text = .ok t)
    (ht : t.toNode.allValues Value.isTimely) : ∀ v ∈ t.toNode.leaves, v.IsShown := by
  obtain ⟨hall, -⟩ := Parser.shaped_of_parse (Parser.gives_isReadable rfl rfl) h
  exact fun v hv => Value.isShown_of_isReadable (Node.of_mem_leaves hall hv)
    (Node.of_mem_leaves ht hv)

/-- **Parsed trees with the same JSON text are equal**, if the dates in them are whole
milliseconds. -/
theorem Term.eq_of_compact_toJson {text₁ text₂ : String} {t₁ t₂ : Term}
    (h₁ : parse text₁ = .ok t₁) (h₂ : parse text₂ = .ok t₂)
    (ht₁ : t₁.toNode.allValues Value.isTimely) (ht₂ : t₂.toNode.allValues Value.isTimely)
    (h : t₁.toJson.compact = t₂.toJson.compact) : t₁ = t₂ ∧ t₁.eqv t₂ := by
  have hshown₁ := isShown_of_parse h₁ ht₁
  have hshown₂ := isShown_of_parse h₂ ht₂
  have hnode : t₁.toNode = t₂.toNode := Node.toJson_inj hshown₁ hshown₂
    (Json.compact_inj (Node.isFinite_toJson hshown₁) (Node.isFinite_toJson hshown₂) h)
  obtain rfl := Term.toNode_inj hnode
  obtain ⟨hall, -⟩ := Parser.shaped_of_parse (Parser.gives_isReadable rfl rfl) h₁
  exact ⟨rfl, Node.eqv_self (Node.allValues_of_all (fun _ => Value.eqv_self) hall)⟩

/-- Two spellings of one tree, with a list, an infinity, a date and a pattern in it. -/
theorem Term.eq_of_compact_toJson_spellings :
    ∃ t₁ t₂, parse "a=in=(1,Infinity)&b=(epoch:0,re:%2Fx%2Fi)" = .ok t₁ ∧
      parse "in(a,(1,Infinity))&eq(b,(isodate:1970-01-01,re:%2Fx%2Fi))" = .ok t₂ ∧
      t₁.toNode.allValues Value.isTimely ∧ t₂.toNode.allValues Value.isTimely ∧
      t₁.toJson.compact = t₂.toJson.compact ∧ t₁ = t₂ ∧ t₁.eqv t₂ := by
  let t : Term := Term.and [
    .term (some "in") [.value (.string "a"),
      .list [.value (.number (.int 1)), .value (.number (.float (.infinity false)))]],
    .term (some "eq") [.value (.string "b"),
      .list [.value (.date ⟨0, 0⟩), .value (.pattern ⟨"x", "i"⟩)]]]
  have h₁ : parse "a=in=(1,Infinity)&b=(epoch:0,re:%2Fx%2Fi)" = .ok t := by
    with_unfolding_all rfl
  have h₂ : parse "in(a,(1,Infinity))&eq(b,(isodate:1970-01-01,re:%2Fx%2Fi))" = .ok t := by
    with_unfolding_all rfl
  exact ⟨_, _, h₁, h₂, by decide, by decide, rfl,
    Term.eq_of_compact_toJson h₁ h₂ (by decide) (by decide) rfl⟩

end ResourceQuery
