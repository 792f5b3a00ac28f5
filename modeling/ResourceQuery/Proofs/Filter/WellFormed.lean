import ResourceQuery.Json.View
import ResourceQuery.Proofs.Entries
import ResourceQuery.Proofs.Filter.Negation
import ResourceQuery.Proofs.Parser.Clauses

/-!
# Compiled filters are well formed

A document is a list of entries, and nothing in its type keeps a key from being there twice or an
operator from having the wrong operand.  The document store refuses such filters, and JSON keeps
the last of two entries with one key only, so a condition would be lost.  Neither happens: in a
compiled filter, and in every document inside of it, keys are distinct and operators have operands
of their kind.

Documents are inside of each other in four ways: listed under a group, as the conditions on an
element, as the operators on a path, and as what `$not` is about.  The statement does not tell them
apart.  It is about every document in a value, at any depth, and so is the invariant that merging
and negation keep.

## Main definitions

* `Value.documents`: the documents in a value, at any depth
* `Document.Fits`: a value is an operand of the kind that its key takes
* `Document.WellFormed`: a document with distinct keys and fitting operands
* `Value.IsSound`: all documents in a value are well formed
* `Node.HasPlainPaths`: no term of a tree is on a field whose path starts with a dollar sign

## Main results

* `Document.Sound.merges`: adding an entry keeps documents sound
* `Value.IsSound.negated`: so does taking a complement
* `Filter.sound_of_compile?`: what a node compiles to is sound
* `Document.toJson_of_nodup`: the JSON of a document with distinct keys has all its entries
* `Filter.wellFormed_ofSelector`: every document in a compiled selector is well formed
-/

namespace ResourceQuery

namespace Value

mutual

/-- The documents in a value, at any depth. -/
def documents : Value → List Document
  | .array items => documentsIn items
  | .object fields => fields :: documentsUnder fields
  | _ => []

/-- The documents in some values. -/
def documentsIn : List Value → List Document
  | [] => []
  | v :: vs => documents v ++ documentsIn vs

/-- The documents in the values of some entries. -/
def documentsUnder : List (String × Value) → List Document
  | [] => []
  | (_, v) :: rest => documents v ++ documentsUnder rest

end

/-- The documents in a list are those in its items. -/
theorem mem_documents_array {items : List Value} {d : Document} :
    d ∈ (array items).documents ↔ ∃ v ∈ items, d ∈ v.documents := by
  rw [documents]
  induction items with
  | nil => simp [documentsIn]
  | cons v items ih => simp [documentsIn, ih]

/-- The documents in a document are itself and those in its values. -/
theorem mem_documents_object {fields d : Document} :
    d ∈ (object fields).documents ↔ d = fields ∨ ∃ e ∈ fields, d ∈ e.2.documents := by
  rw [documents, List.mem_cons]
  refine or_congr_right ?_
  induction fields with
  | nil => simp [documentsUnder]
  | cons e fields ih =>
    obtain ⟨key, v⟩ := e
    simp [documentsUnder, ih]

mutual

/-- A value without documents has none at any depth. -/
theorem documents_eq_nil : ∀ v : Value, v.isDocumentFree → v.documents = []
  | .array items, h => by
    rw [documents]
    exact documentsIn_eq_nil items h
  | .null, _ | .undefined, _ | .bool _, _ | .number _, _ | .string _, _ | .date _, _
  | .pattern _, _ | .host _, _ => by rw [documents] <;> simp

theorem documentsIn_eq_nil : ∀ vs : List Value, areDocumentFree vs → documentsIn vs = []
  | [], _ => by rw [documentsIn]
  | v :: vs, h => by
    rw [areDocumentFree, Bool.and_eq_true] at h
    rw [documentsIn, documents_eq_nil v h.1, documentsIn_eq_nil vs h.2, List.append_nil]

end

end Value

namespace Document

/-- The keys of operators that do not take every operand. -/
def strictKeys : List String :=
  ["$and", "$or", "$nor", "$elemMatch", "$in", "$nin", "$all", "$mod"]

/-- The value is an operand of the kind that its key takes.  Other keys, and paths among them, take
every value. -/
structure Fits (key : String) (v : Value) : Prop where
  conjunction : key = "$and" → ∃ docs, v = listed docs ∧ 2 ≤ docs.length ∧ [] ∉ docs
  group : key ∈ ["$or", "$nor"] → ∃ docs, v = listed docs ∧ 1 ≤ docs.length ∧ [] ∉ docs
  element : key = "$elemMatch" → ∃ d, v = .object d ∧ d ≠ []
  members : key ∈ ["$in", "$nin", "$all"] → ∃ items, v = .array items ∧ items ≠ []
  remainder : key = "$mod" →
    ∃ divisor rest, v = .array [divisor, rest] ∧ divisor.isNumber ∧ rest.isNumber

/-- The keys are distinct, and every value is an operand of the kind that its key takes. -/
structure WellFormed (d : Document) : Prop where
  distinct : d.keys.Nodup
  fits : ∀ e ∈ d, Fits e.1 e.2

end Document

/-- All documents in the value are well formed. -/
def Value.IsSound (v : Value) : Prop := ∀ d ∈ v.documents, d.WellFormed

namespace Document

/-- The document is well formed, and so are all documents in it. -/
def Sound (d : Document) : Prop := (Value.object d).IsSound

variable {key : String} {v : Value}

/-- A key that is not strict takes every value. -/
theorem fits_of_notMem (h : key ∉ strictKeys) (v : Value) : Fits key v := by
  simp only [strictKeys, List.mem_cons, List.not_mem_nil, or_false, not_or] at h
  constructor <;> simp [h]

/-- A key that is no operator takes every value. -/
theorem fits_of_not_isOperatorKey (h : isOperatorKey key = false) (v : Value) : Fits key v := by
  have hoperators : ∀ key ∈ strictKeys, isOperatorKey key := by decide
  refine fits_of_notMem (fun hmem => ?_) v
  simp [hoperators key hmem] at h

theorem fits_conjunction {docs : List Document} (hlength : 2 ≤ docs.length) (hne : [] ∉ docs) :
    Fits "$and" (listed docs) := by
  refine ⟨fun _ => ⟨docs, rfl, hlength, hne⟩, ?_, ?_, ?_, ?_⟩ <;> simp

theorem fits_group (hkey : key ∈ ["$or", "$nor"]) {docs : List Document} (hsome : docs ≠ [])
    (hne : [] ∉ docs) : Fits key (listed docs) := by
  have hlength : 1 ≤ docs.length := List.length_pos_iff.mpr hsome
  simp only [List.mem_cons, List.not_mem_nil, or_false] at hkey
  refine ⟨?_, fun _ => ⟨docs, rfl, hlength, hne⟩, ?_, ?_, ?_⟩
  all_goals rcases hkey with rfl | rfl <;> simp

theorem fits_element {d : Document} (hd : d ≠ []) : Fits "$elemMatch" (.object d) := by
  refine ⟨?_, ?_, fun _ => ⟨d, rfl, hd⟩, ?_, ?_⟩ <;> simp

theorem fits_members (hkey : key ∈ ["$in", "$nin", "$all"]) {items : List Value}
    (hitems : items ≠ []) : Fits key (.array items) := by
  simp only [List.mem_cons, List.not_mem_nil, or_false] at hkey
  refine ⟨?_, ?_, ?_, fun _ => ⟨items, rfl, hitems⟩, ?_⟩
  all_goals rcases hkey with rfl | rfl | rfl <;> simp

theorem fits_remainder {divisor rest : Value} (hdivisor : divisor.isNumber)
    (hrest : rest.isNumber) : Fits "$mod" (.array [divisor, rest]) := by
  refine ⟨?_, ?_, ?_, ?_, fun _ => ⟨divisor, rest, rfl, hdivisor, hrest⟩⟩ <;> simp

/-- More operators fit where some do. -/
theorem Fits.append {a : Document} (h : Fits key (.object a)) (b : Document) :
    Fits key (.object (a ++ b)) where
  conjunction hkey := by
    obtain ⟨docs, hdocs, -⟩ := h.conjunction hkey
    cases hdocs
  group hkey := by
    obtain ⟨docs, hdocs, -⟩ := h.group hkey
    cases hdocs
  element hkey := by
    obtain ⟨d, hd, hne⟩ := h.element hkey
    cases hd
    exact ⟨a ++ b, rfl, by simp [hne]⟩
  members hkey := by
    obtain ⟨items, hitems, -⟩ := h.members hkey
    cases hitems
  remainder hkey := by
    obtain ⟨_, _, hpair, -⟩ := h.remainder hkey
    cases hpair

/-- A single entry that fits is a well-formed document. -/
theorem wellFormed_singleton (h : Fits key v) : WellFormed [(key, v)] where
  distinct := by simp
  fits := by simpa using h

/-- Well-formed documents without a common key are joined to a well-formed one. -/
theorem wellFormed_append {a b : Document} (ha : a.WellFormed) (hb : b.WellFormed)
    (hab : overlap a b = false) : (a ++ b).WellFormed where
  distinct := by
    rw [keys_append, List.nodup_append]
    refine ⟨ha.distinct, hb.distinct, fun k hk l hl => ?_⟩
    rintro rfl
    obtain ⟨e, he, rfl⟩ := List.mem_map.mp hk
    obtain ⟨f, hf, heq⟩ := List.mem_map.mp hl
    simp only [overlap, List.any_eq_false] at hab
    exact hab f hf (List.any_eq_true.mpr ⟨e, he, by simpa using heq.symm⟩)
  fits e he := by
    rcases List.mem_append.mp he with he | he
    · exact ha.fits e he
    · exact hb.fits e he

/-- Documents are sound entry by entry. -/
theorem sound_iff {d : Document} : d.Sound ↔ d.WellFormed ∧ ∀ e ∈ d, e.2.IsSound := by
  constructor
  · intro h
    refine ⟨h d (Value.mem_documents_object.mpr (.inl rfl)), fun e he f hf => ?_⟩
    exact h f (Value.mem_documents_object.mpr (.inr ⟨e, he, hf⟩))
  · rintro ⟨hd, hentries⟩ f hf
    rcases Value.mem_documents_object.mp hf with rfl | ⟨e, he, hf⟩
    · exact hd
    · exact hentries e he f hf

theorem sound_nil : Sound [] := sound_iff.mpr ⟨⟨List.nodup_nil, by simp⟩, by simp⟩

theorem sound_singleton (hfits : Fits key v) (hv : v.IsSound) : Sound [(key, v)] :=
  sound_iff.mpr ⟨wellFormed_singleton hfits, by simpa using hv⟩

/-- A group of sound documents is sound. -/
theorem isSound_listed {docs : List Document} (h : ∀ d ∈ docs, d.Sound) :
    (listed docs).IsSound := by
  intro e he
  obtain ⟨v, hv, he⟩ := Value.mem_documents_array.mp he
  obtain ⟨d, hd, rfl⟩ := List.mem_map.mp hv
  exact h d hd e he

/-- **Adding an entry keeps documents sound**, also where operators are joined on a path. -/
theorem Sound.merges {d d' : Document} (hd : d.Sound) (hfits : Fits key v) (hv : v.IsSound)
    (h : d.Merges key v d') : d'.Sound := by
  obtain ⟨hwell, hentries⟩ := sound_iff.mp hd
  have hnodup := h.keys_nodup hwell.distinct
  cases h with
  | appended =>
    refine sound_iff.mpr ⟨⟨hnodup, ?_⟩, ?_⟩
    · exact List.forall_mem_append.mpr ⟨hwell.fits, by simpa using hfits⟩
    · exact List.forall_mem_append.mpr ⟨hentries, by simpa using hv⟩
  | @joined before after a b hd' hb =>
    subst hd' hb
    obtain ⟨hbefore, hhere⟩ := List.forall_mem_append.mp hentries
    obtain ⟨ha, hafter⟩ := List.forall_mem_cons.mp hhere
    obtain ⟨fitBefore, fitHere⟩ := List.forall_mem_append.mp hwell.fits
    obtain ⟨fitA, fitAfter⟩ := List.forall_mem_cons.mp fitHere
    obtain ⟨hwellA, hentriesA⟩ := sound_iff.mp ha
    obtain ⟨hwellB, hentriesB⟩ := sound_iff.mp hv
    have hjoined : (a ++ b).Sound := by
      refine sound_iff.mpr ⟨wellFormed_append hwellA hwellB ‹_›, ?_⟩
      exact List.forall_mem_append.mpr ⟨hentriesA, hentriesB⟩
    refine sound_iff.mpr ⟨⟨hnodup, ?_⟩, ?_⟩
    · exact List.forall_mem_append.mpr
        ⟨fitBefore, List.forall_mem_cons.mpr ⟨fitA.append b, fitAfter⟩⟩
    · exact List.forall_mem_append.mpr ⟨hbefore, List.forall_mem_cons.mpr ⟨hjoined, hafter⟩⟩

end Document

namespace Value

open Document (Fits Sound sound_iff sound_singleton fits_of_notMem fits_members)

/-- Values without documents are sound, as nothing is asked of them. -/
theorem isSound_of_isDocumentFree {v : Value} (h : v.isDocumentFree) : v.IsSound := by
  intro d hd
  rw [documents_eq_nil v h] at hd
  cases hd

/-- **The complement of a sound condition is sound.**  The complementary operators `$in` and `$nin`
take the same operands. -/
theorem IsSound.negated {v : Value} (h : v.IsSound) : v.negated.IsSound := by
  fun_cases Value.negated v with
  | case2 operand =>
    exact (sound_iff.mp h).2 _ List.mem_cons_self
  | case3 operand | case4 operand =>
    obtain ⟨hwell, hentries⟩ := sound_iff.mp h
    obtain ⟨items, hitems, hne⟩ := (hwell.fits _ List.mem_cons_self).members (by simp)
    subst hitems
    exact sound_singleton (fits_members (by simp) hne) (hentries _ List.mem_cons_self)
  | case1 | case5 | case6 | case7 | case8 => exact sound_singleton (fits_of_notMem (by decide) _) h

end Value

/-! ## Compiled documents -/

namespace Node

/-- No term of the tree is on a field whose path starts with a dollar sign. -/
def HasPlainPaths (n : Node) : Prop :=
  ∀ c ∈ n.terms, c.name ∈ Filter.fieldNames → ∀ path,
    Filter.fieldPath? (.term (some c.name) c.args) = some path → isOperatorKey path = false

theorem mem_termsIn {ns : List Node} {c : Clause} : c ∈ termsIn ns ↔ ∃ n ∈ ns, c ∈ n.terms := by
  induction ns with
  | nil => simp [termsIn]
  | cons n ns ih => simp [termsIn, ih]

/-- The arguments of a term have plain paths if the term has. -/
theorem HasPlainPaths.of_mem {name : Option String} {args : List Node}
    (h : (Node.term name args).HasPlainPaths) {m : Node} (hm : m ∈ args) : m.HasPlainPaths := by
  intro c hc
  refine h c ?_
  have hargs : c ∈ termsIn args := mem_termsIn.mpr ⟨m, hm, hc⟩
  cases name with
  | none => exact hargs
  | some name => exact List.mem_cons_of_mem _ hargs

/-- The path of a term on a field is no operator, where paths are plain. -/
theorem HasPlainPaths.path {name : String} {field : Node} {args : List Node}
    (h : (Node.term (some name) (field :: args)).HasPlainPaths) (hname : name ∈ Filter.fieldNames)
    {allowed : String → Bool} {path : String}
    (hpath : Filter.allowedPath? allowed field = some path) : isOperatorKey path = false :=
  h ⟨name, field :: args⟩ List.mem_cons_self hname path (Option.filter_eq_some_iff.mp hpath).1

end Node

namespace Filter

open Document (Sound Fits sound_iff sound_nil sound_singleton isSound_listed fits_of_notMem
  fits_of_not_isOperatorKey fits_conjunction fits_group fits_element fits_members fits_remainder)
open Value (isSound_of_isDocumentFree)

variable {o : FilterOptions} {allowed : String → Bool}

theorem isSound_entry {key : String} {v : Value} (hfits : Fits key v) (hv : v.isDocumentFree) :
    (Value.entry key v).IsSound :=
  sound_singleton hfits (isSound_of_isDocumentFree hv)

/-- Conditions are sound, as their operators have the operands that they take. -/
theorem IsCondition.isSound {c : Value} (h : IsCondition c) : c.IsSound := by
  have hfree : ∀ key ∈ freeKeys, key ∉ Document.strictKeys := by decide
  cases h with
  | operand hv => exact isSound_of_isDocumentFree hv
  | single hkey hv => exact isSound_entry (fits_of_notMem (hfree _ hkey) _) hv
  | members hkey hne hv => exact isSound_entry (fits_members hkey hne) hv
  | remainder hdivisor hrest =>
    exact isSound_entry (fits_remainder hdivisor hrest) (isDocumentFree_pair hdivisor hrest)
  | flagged hp =>
    refine sound_iff.mpr ⟨⟨by simp, ?_⟩, ?_⟩
    · simpa using ⟨fits_of_notMem (by decide) _, fits_of_notMem (by decide) _⟩
    · simpa using ⟨isSound_of_isDocumentFree (isDocumentFree_of_isPatternText hp),
        isSound_of_isDocumentFree rfl⟩

/-- Groups, negations and program text have no condition on a field. -/
theorem mem_fieldNames_of_condition? {name : String} {op : Operator} {args : List Node} {w : Value}
    (hname : Operator.ofName? name = some op) (h : condition? op args = some w) :
    name ∈ fieldNames := by
  refine (mem_fieldNames_or hname).resolve_right fun hop => ?_
  simp only [List.mem_cons, List.not_mem_nil, or_false] at hop
  rcases hop with rfl | rfl | rfl | rfl | rfl <;> simp [condition?] at h

/-- A conjunction of sound members is sound.  The members are kept apart under `$and` only if there
are two of them. -/
theorem sound_of_conjunction? {compact : Bool} {docs : List Document} {d : Document}
    (hdocs : ∀ e ∈ docs, e.Sound) (hne : [] ∉ docs) (h : conjunction? compact docs = some d) :
    d.Sound := by
  by_cases hsingle : docs.length = 1
  · obtain ⟨e, rfl⟩ := List.length_eq_one_iff.mp hsingle
    obtain rfl : e = d := by simpa [conjunction?] using h
    exact hdocs e List.mem_cons_self
  · obtain ⟨hsome, rfl | hmerged | rfl⟩ := conjunction?_cases h
    · exact absurd rfl hsingle
    · have hflatten : ∀ e ∈ docs.flatten, Fits e.1 e.2 ∧ e.2.IsSound := by
        intro e he
        obtain ⟨f, hf, he⟩ := List.mem_flatten.mp he
        obtain ⟨hwell, hentries⟩ := sound_iff.mp (hdocs f hf)
        exact ⟨hwell.fits e he, hentries e he⟩
      refine Document.mergeEntries?_induction (motive := fun d seen =>
        (∀ e ∈ seen, Fits e.1 e.2 ∧ e.2.IsSound) → d.Sound) (fun _ => sound_nil) ?_ hmerged hflatten
      intro d d' seen key v hmerges ih hseen
      obtain ⟨hseen, hentry⟩ := List.forall_mem_append.mp hseen
      obtain ⟨hfits, hv⟩ := hentry (key, v) (List.mem_singleton_self _)
      exact (ih hseen).merges hfits hv hmerges
    · have hlength : 2 ≤ docs.length := by
        have hpos := List.length_pos_iff.mpr hsome
        omega
      exact sound_singleton (fits_conjunction hlength hne) (isSound_listed hdocs)

/-- No empty document is listed under a group. -/
theorem nil_notMem_compileAll (ns : List Node) : [] ∉ compileAll o allowed ns :=
  fun hmem => ne_nil_of_mem_compileAll hmem rfl

/-- **What a node compiles to is sound**, under every policy, since the conditions on an element are
compiled without one. -/
theorem sound_of_compile? {n : Node} (hn : n.allValues Value.isDocumentFree)
    (hpaths : n.HasPlainPaths) {d : Document} (h : compile? o allowed n = some d) : d.Sound := by
  induction n generalizing allowed d with
  | term name args ih =>
    have hargs := Node.allValues_term.mp hn
    have hmembers : ∀ allowed, ∀ m ∈ args, ∀ e, compile? o allowed m = some e → e.Sound :=
      fun allowed m hm e he => ih m hm (hargs m hm) (hpaths.of_mem hm) he
    have hdocs : ∀ allowed, ∀ ns ⊆ args, ∀ e ∈ compileAll o allowed ns, e.Sound := by
      intro allowed ns hns e he
      obtain ⟨m, hm, hcompile, -⟩ := mem_compileAll_iff.mp he
      exact hmembers allowed m (hns hm) e hcompile
    have hgroup : ∀ key ∈ ["$or", "$nor"], compileAll o allowed args ≠ [] →
        Sound [(key, Document.listed (compileAll o allowed args))] := fun key hkey hne =>
      sound_singleton (fits_group hkey hne (nil_notMem_compileAll args))
        (isSound_listed (hdocs allowed args (List.Subset.refl _)))
    cases compile?_eq_some_iff.mp h with
    | onField hname hcondition hpath =>
      have hfield := mem_fieldNames_of_condition? hname hcondition
      have hform := isCondition_of_condition?
        (fun m hm => hargs m (List.mem_cons_of_mem _ hm)) hcondition
      exact sound_singleton (fits_of_not_isOperatorKey (hpaths.path hfield hpath) _) hform.isSound
    | conjunction hname hd =>
      exact sound_of_conjunction? (hdocs allowed args (List.Subset.refl _))
        (nil_notMem_compileAll args) hd
    | disjunction hname hne => exact hgroup "$or" (by simp) hne
    | noneOf hname hne => exact hgroup "$nor" (by simp) hne
    | negation hname hne =>
      refine negateAll_induction sound_nil ?_
      intro m hm e _ he d d' key v hentry hkey hmerges hd
      have hv := (sound_iff.mp (hmembers allowed m hm e he)).2 (key, v) hentry
      exact hd.merges (fits_of_not_isOperatorKey hkey _) hv.negated hmerges
    | @element name field conditions path e hname hd hpath =>
      have hfield : name ∈ fieldNames := (mem_fieldNames_or hname).resolve_right (by simp)
      have hne : e ≠ [] := ne_nil_of_conjunction? (fun _ => ne_nil_of_mem_compileAll) hd
      have hsound : e.Sound := sound_of_conjunction?
        (hdocs _ conditions (List.subset_cons_self field conditions))
        (nil_notMem_compileAll conditions) hd
      exact sound_singleton (fits_of_not_isOperatorKey (hpaths.path hfield hpath) _)
        (sound_singleton (fits_element hne) hsound)
    | script hname hallow =>
      exact sound_singleton (fits_of_notMem (by decide) _) (isSound_of_isDocumentFree rfl)
  | list items => cases h
  | value v => cases h

/-- **Compiled selectors are sound.** -/
theorem sound_ofSelector {t : Term} (ht : t.toNode.allValues Value.isDocumentFree)
    (hpaths : t.toNode.HasPlainPaths) : (ofSelector o t).Sound := by
  unfold ofSelector
  split_ifs
  · cases hand : conjunction? true (compileAll o o.policy.isAllowed t.args) with
    | none => exact sound_nil
    | some d =>
      refine sound_of_conjunction? (fun e he => ?_) (nil_notMem_compileAll t.args) hand
      obtain ⟨m, hm, hcompile, -⟩ := mem_compileAll_iff.mp he
      exact sound_of_compile? (Node.allValues_term.mp ht m hm) (hpaths.of_mem hm) hcompile
  · cases hnode : compile? o o.policy.isAllowed t.toNode with
    | none => exact sound_nil
    | some d => exact sound_of_compile? ht hpaths hnode

end Filter

/-! ## JSON -/

/-- No entry is lost in JSON if the keys are distinct. -/
theorem Json.ofEntries_of_nodup {entries : List (String × Json)}
    (h : (entries.map Prod.fst).Nodup) : Json.ofEntries entries = .object entries := by
  have hadded : entries.foldl (fun acc e => Entries.upsert acc e.1 e.2) [] = entries :=
    Entries.foldl_upsert_of_nodup h
  exact congrArg Json.object hadded

theorem Value.toJsonFields_eq_map (d : Document) :
    Value.toJsonFields d = d.map fun e => (e.1, e.2.toJson) := by
  induction d with
  | nil => rfl
  | cons e d ih =>
    obtain ⟨key, v⟩ := e
    rw [toJsonFields, ih, List.map_cons]

/-- **The JSON of a document with distinct keys has all its entries**, in their order. -/
theorem Document.toJson_of_nodup {d : Document} (h : d.keys.Nodup) :
    d.toJson = .object (d.map fun e => (e.1, e.2.toJson)) := by
  rw [toJson, Value.toJson, Value.toJsonFields_eq_map]
  refine Json.ofEntries_of_nodup ?_
  rwa [List.map_map]

namespace Filter

/-- **Every document in a compiled selector is well formed**, the selector itself and those at any
depth in it: its keys are distinct and its operands are of the kind that their operators take.  So
JSON has every entry of it. -/
theorem wellFormed_ofSelector (o : FilterOptions) (t : Term)
    (ht : t.toNode.allValues Value.isDocumentFree) (hpaths : t.toNode.HasPlainPaths) :
    ∀ d ∈ (Value.object (ofSelector o t)).documents,
      d.WellFormed ∧ d.toJson = .object (d.map fun e => (e.1, e.2.toJson)) := by
  intro d hd
  have hwell := sound_ofSelector ht hpaths d hd
  exact ⟨hwell, Document.toJson_of_nodup hwell.distinct⟩

/-- Two conditions on one path of an element, below a negation and beside joined operators. -/
theorem wellFormed_ofSelector_nested :
    let one : Value := .number (.int 1)
    let two : Value := .number (.int 2)
    let on (name path : String) (operand : Node) : Node :=
      .term (some name) [.value (.string path), operand]
    let t : Term := .and [on "in" "a" (.list [.value one, .value two]), on "gt" "a" (.value one),
      .term (some "not") [on "nin" "c" (.list [.value one]),
        .term (some "elemMatch") [.value (.string "d"), on "eq" "x" (.value one),
          on "eq" "x" (.value two)]]]
    let inner : Document := [("$and", Document.listed [[("x", one)], [("x", two)]])]
    t.toNode.allValues Value.isDocumentFree ∧ t.toNode.HasPlainPaths ∧
      ofSelector {} t = [("a", .object [("$in", .array [one, two]), ("$gt", one)]),
        ("c", .entry "$in" (.array [one])),
        ("d", .entry "$not" (.entry "$elemMatch" (.object inner)))] ∧
      inner.WellFormed ∧ inner.toJson = .object (inner.map fun e => (e.1, e.2.toJson)) := by
  intro one two on t inner
  have ht : t.toNode.allValues Value.isDocumentFree := by decide
  have hpaths : t.toNode.HasPlainPaths := by
    unfold Node.HasPlainPaths
    decide
  have hselector : ofSelector {} t = [("a", .object [("$in", .array [one, two]), ("$gt", one)]),
      ("c", .entry "$in" (.array [one])),
      ("d", .entry "$not" (.entry "$elemMatch" (.object inner)))] := by
    simp only [t, on, one, two, inner]
    rfl
  have hinner : inner ∈ (Value.object (ofSelector {} t)).documents := by
    rw [hselector]
    simp [Value.entry, Value.mem_documents_object]
  exact ⟨ht, hpaths, hselector, wellFormed_ofSelector {} t ht hpaths inner hinner⟩

end Filter

end ResourceQuery
