import ResourceQuery.Proofs.Query.RoundTrip

/-!
# The sort clause by itself

The sort clause of the text of a query is a text as well, and not always one that the sort order is
read back from.  The direction of a key is a sign in front of it.  For an ascending key the sign is
left out, so a key that starts with a sign loses it.  A descending key is written after a minus sign,
and if it would be taken for something other than a string there is a tag between the two; but then
the sign belongs to the tag, and no converter has that name.

These are the only ways to lose a sort order: the words of the clause are read one by one, and if no
key changes then neither does their sequence.

## Main definitions

* `Query.sortOnly`: the sort order of a query and nothing else

## Main results

* `Query.isOk_parseQuery_sortOnly_iff`: when the clause is accepted
* `Query.sort_of_parseQuery_sortOnly`: what it is read as
* `Query.sort_of_parseQuery_sortClause`: when the sort order is read back
-/

namespace ResourceQuery

open Shorthand

/-- A sign in front of a tag makes a tag that nothing is known for. -/
theorem Registry.convert_minus_tagged {k : String} (h : ¬ TextStyle.isPlain k) :
    builtin.convert "auto" ("-" ++ ({} : TextStyle).string k) =
      .error (.unknownConverter "-string") := by
  have htext : "-" ++ ({} : TextStyle).string k = "-string" ++ ":" ++ Percent.encode k := by
    rw [TextStyle.string, if_neg h, ← String.append_assoc]
    rfl
  have hunknown : builtin.find? "-string" = none := by decide
  rw [htext, convert, split_tagged (by decide)]
  simp only [hunknown]

namespace Query

/-! ## The query of a sort clause -/

/-- The sort order of a query and nothing else. -/
def sortOnly (q : Query) : Query where
  sort := q.sort

variable {q q' : Query}

theorem IsParsed.sortOnly (h : q.IsParsed) : q.sortOnly.IsParsed where
  shaped := (by decide : (Term.and []).toNode.all Parser.isTermName Value.isReadable)
  root := .inl rfl
  angleFree := by simp [Query.sortOnly, Term.toNode, Term.and]
  keys := ⟨by simp [Query.sortOnly], h.keys.sort⟩
  consistent := ⟨List.nodup_nil, .inl (by simp [Query.sortOnly]), h.consistent.sort_nodup,
    h.consistent.orders, .inl rfl,
    (by decide : (0 : UInt64).toNat < 2 ^ 63)⟩

theorem hasPlainNames_sortOnly (q : Query) : q.sortOnly.HasPlainNames := by
  intro name hname
  obtain rfl : name = andName := List.mem_singleton.mp hname
  exact not_hasEncodedSign_of_notMem (by decide)

/-- The sort clause is all there is to write. -/
theorem canonical_sortOnly {clause : String}
    (h : TextStyle.clause? "sort" (q.sort.map ({} : TextStyle).sortKey) = some clause) :
    q.sortOnly.canonical = clause := by
  have hclauses : ({} : TextStyle).clauses q.sortOnly = [clause] := by
    change [none, none, TextStyle.clause? "sort" (q.sort.map ({} : TextStyle).sortKey),
      none].filterMap id = _
    rw [h]
    rfl
  rw [canonical, TextStyle.query, hclauses]
  exact String.intercalate_singleton

theorem outline_sortOnly (hsort : q.sort ≠ []) :
    q.sortOnly.outline = Term.and [.clause ("sort", q.sort.map ({} : TextStyle).sortKey)] := by
  have hwritten : q.sortOnly.written = [("sort", q.sort.map ({} : TextStyle).sortKey)] := by
    change [("select", []), ("exclude", []), ("sort", q.sort.map ({} : TextStyle).sortKey),
      ("limit", [])].filter (fun c => !c.2.isEmpty) = _
    simp [hsort]
  rw [outline, hwritten]
  rfl

theorem converts_sortKey_iff (e : String × SortOrder) :
    Parser.queries.Converts (({} : TextStyle).sortKey e) ↔
      (e.2 < 0 → TextStyle.isPlain e.1) := by
  refine ⟨?_, fun hplain => isStandard_queries.converts (convert_sortKey hplain)⟩
  rintro ⟨v, hv⟩ horder
  by_contra hplain
  rw [TextStyle.sortKey, if_pos horder] at hv
  cases (Registry.convert_minus_tagged hplain).symm.trans hv

/-- **The sort clause is accepted** if all descending keys are written without a tag. -/
theorem isOk_parseQuery_sortOnly_iff (h : q.IsParsed) (hsort : q.sort ≠ []) :
    (∃ q', parseQuery q.sortOnly.canonical = .ok q') ↔
      ∀ e ∈ q.sort, e.2 = .descending → TextStyle.isPlain e.1 := by
  have hleaves : q.sortOnly.outline.toNode.leaves =
      q.sort.map fun e => .host ⟨({} : TextStyle).sortKey e, .verbatim⟩ := by
    rw [outline_sortOnly hsort, Term.and, Term.toNode, Node.leaves_term, List.flatMap_singleton,
      Node.clause, Node.leaves_term, List.map_map, List.flatMap_map, List.map_eq_flatMap]
    rfl
  have hparse : (∃ q', parseQuery q.sortOnly.canonical = .ok q') ↔
      ∀ v ∈ q.sortOnly.outline.toNode.leaves, Parser.queries.Converts v.canonical := by
    simp [parseQuery_eq_ok_iff, h.sortOnly.parse_canonical_iff q.hasPlainNames_sortOnly]
  rw [hparse, hleaves, List.forall_mem_map]
  exact forall₂_congr fun e he => (converts_sortKey_iff e).trans
    (imp_congr_left (h.consistent.order_neg_iff he))

/-- **What the sort clause is read as**: what the paths say that the keys are written as. -/
theorem sort_of_parseQuery_sortOnly (h : q.IsParsed) (hsort : q.sort ≠ [])
    (h' : parseQuery q.sortOnly.canonical = .ok q') :
    q'.sort =
      ((q.sort.map sortPath).map sortKey).foldl (fun s k => Entries.upsert s k.1 k.2) [] := by
  have hplain : ∀ e ∈ q.sort, e.2 < 0 → TextStyle.isPlain e.1 := fun e he horder =>
    (isOk_parseQuery_sortOnly_iff h hsort).mp ⟨q', h'⟩ e he
      ((h.consistent.order_neg_iff he).mp horder)
  rw [h.sortOnly.part_of_flat q.hasPlainNames_sortOnly h' isPart_sort (by decide) (fun _ => rfl)
    rfl]
  exact sort_rewritten_eq (q := q.sortOnly) hplain _

/-- **When a sort order is read back from its clause.**  The clause is accepted if no descending key
has a tag, and if so the sort order is the same if no ascending key starts with a sign. -/
theorem sort_of_parseQuery_sortClause {text clause : String} (h : parseQuery text = .ok q)
    (hclause : TextStyle.clause? "sort" (q.sort.map ({} : TextStyle).sortKey) = some clause) :
    ((∃ q', parseQuery clause = .ok q') ↔
      ∀ e ∈ q.sort, e.2 = .descending → TextStyle.isPlain e.1) ∧
    ∀ q', parseQuery clause = .ok q' → (q'.sort = q.sort ↔
      ∀ e ∈ q.sort, e.2 = .ascending →
        e.1.toList.head? ≠ some '+' ∧ e.1.toList.head? ≠ some '-') := by
  have hq := isParsed_of_parseQuery h
  have hsort : q.sort ≠ [] := by
    intro hempty
    rw [hempty] at hclause
    cases hclause
  obtain rfl := canonical_sortOnly hclause
  refine ⟨isOk_parseQuery_sortOnly_iff hq hsort, fun q' h' => ?_⟩
  rw [sort_of_parseQuery_sortOnly hq hsort h']
  have hkeys : (q.sort.map sortPath).map sortKey = q.sort ↔
      ∀ e ∈ q.sort, sortKey (sortPath e) = e := by
    rw [List.map_map]
    nth_rewrite 2 [← List.map_id q.sort]
    exact List.map_inj_left
  have hunsigned : (q.sort.map sortPath).map sortKey = q.sort ↔ ∀ e ∈ q.sort, e.2 = .ascending →
      e.1.toList.head? ≠ some '+' ∧ e.1.toList.head? ≠ some '-' :=
    hkeys.trans (forall₂_congr fun e he => sortKey_sortPath_iff (hq.consistent.orders e he))
  rw [← hunsigned]
  constructor
  · intro hread
    exact Entries.eq_of_foldl_upsert hread (by simp)
  · intro hsame
    rw [hsame]
    exact Entries.foldl_upsert_of_nodup (by simpa using hq.consistent.sort_nodup)

/-- A key that loses its sign, and one that is refused with its tag. -/
theorem sort_of_parseQuery_sortClause_signs :
    (∃ q q', parseQuery "sort(%2B%2Ba,-b)" = .ok q ∧ parseQuery "sort(%2Ba,-b)" = .ok q' ∧
      q'.sort ≠ q.sort) ∧
    (∃ q, parseQuery "sort(-true)" = .ok q) ∧ ¬ ∃ q', parseQuery "sort(-string:true)" = .ok q' := by
  have hsigned : parseQuery "sort(%2B%2Ba,-b)" = .ok
      { selector := Term.and [.term (some "sort") [.value (.string "++a"), .value (.string "-b")]],
        sort := [("+a", .ascending), ("b", .descending)] } := by
    with_unfolding_all rfl
  have htagged : parseQuery "sort(-true)" = .ok
      { selector := Term.and [.term (some "sort") [.value (.string "-true")]],
        sort := [("true", .descending)] } := by
    with_unfolding_all rfl
  obtain ⟨q', h'⟩ : ∃ q', parseQuery "sort(%2Ba,-b)" = .ok q' := ⟨_, by with_unfolding_all rfl⟩
  refine ⟨⟨_, q', hsigned, h', fun hsame => ?_⟩, ⟨_, htagged⟩, fun haccepted => ?_⟩
  · have hunsigned := ((sort_of_parseQuery_sortClause hsigned (by decide +kernel)).2 q' h').mp hsame
    exact (hunsigned ("+a", .ascending) (by simp) rfl).1 rfl
  · have hplain := (sort_of_parseQuery_sortClause htagged (by decide +kernel)).1.mp haccepted
    exact absurd (hplain ("true", .descending) (by simp) rfl) (by decide)

end Query

end ResourceQuery
