import Mathlib.Logic.Relation
import ResourceQuery.Filter.StoreQuery
import ResourceQuery.Proofs.Query.Clauses

/-!
# Sessions

A session keeps a query and changes it step by step: a clause is applied to it, or a text is read
and its query takes the place of the old one.  Clauses come with any name and any arguments, in any
order and as often as the host likes, while a text gives at most one of each name.  Still no session
leaves the consistent queries: the document store refuses a projection that mixes included and
excluded fields, and no order of `select` and `exclude` leads to one.

## Main definitions

* `Query.Step`: one step of a session
* `Query.Reachable`: the queries that sessions reach from the empty one

## Main results

* `Query.Consistent.step`: a step keeps a query consistent
* `Query.Reachable.consistent`: every session does
* `Query.limit_compile_eq_zero_iff`: a compiled query has no limit only if the query has none
* `Query.wellFormed_of_reachable`: what is true of every query that a session reaches
-/

namespace ResourceQuery

namespace Query

/-- One step of a session: a clause is applied, or the query of a text takes over. -/
inductive Step : Query → Query → Prop
  | clause (q : Query) (c : Clause) : Step q (q.applyClause c)
  | text {q r : Query} (p : Parser) (text : String) (h : p.parseQuery text = .ok r) : Step q r

/-- A session leads from the empty query to this one. -/
def Reachable (q : Query) : Prop := Relation.ReflTransGen Step {} q

theorem consistent_of_parseQuery {p : Parser} {text : String} {q : Query}
    (h : p.parseQuery text = .ok q) : q.Consistent := by
  obtain ⟨⟨selector, clauses⟩, -, rfl⟩ := exists_of_map_eq_ok h
  exact consistent_ofClauses selector clauses

theorem Consistent.step {q r : Query} (hq : q.Consistent) (h : Step q r) : r.Consistent := by
  cases h with
  | clause c => exact hq.applyClause c
  | text p text h =>
    -- What was there before is gone, so its consistency is not needed.
    exact consistent_of_parseQuery h

/-- **Every session keeps its query consistent.** -/
theorem Reachable.consistent {q : Query} (h : Reachable q) : q.Consistent := by
  induction h with
  | refl => exact consistent_ofClauses (.and []) []
  | tail _ hstep ih => exact ih.step hstep

/-- The limit of a compiled query is the limit that is set. -/
theorem toNat_limit_compile {q : Query} (h : 1 ≤ q.limit) (o : FilterOptions) :
    ((q.compile o).limit.toNat : Int) = q.limit.toInt := by
  have hone : (1 : Int) ≤ q.limit.toInt := Int64.le_iff_toInt_le.mp h
  have hnonneg : 0 ≤ q.limit := by
    rw [Int64.le_iff_toInt_le]
    change (0 : Int) ≤ q.limit.toInt
    omega
  have hnegative : ¬ q.limit < 0 := Int64.not_lt.mpr hnonneg
  rw [compile, if_neg hnegative]
  exact toNat_toUInt64 hnonneg

/-- A compiled query has the limit 0 exactly if the query has none. -/
theorem limit_compile_eq_zero_iff {q : Query} (h : q.Consistent) (o : FilterOptions) :
    (q.compile o).limit = 0 ↔ q.limit = -1 := by
  constructor
  · intro hzero
    rcases h.limit with hunset | hset
    · exact hunset
    · -- A limit that is set is compiled as it is, and it is not 0.
      have hcompile := toNat_limit_compile hset o
      have hone : (1 : Int) ≤ q.limit.toInt := Int64.le_iff_toInt_le.mp hset
      rw [hzero] at hcompile
      change (0 : Int) = q.limit.toInt at hcompile
      omega
  · intro hunset
    rw [compile, if_pos]
    rw [hunset]
    decide

/-- **What is true of every query that a session reaches.**  No field and no sort key is there
twice; sort orders are 1 or -1; a limit is positive; what is skipped fits a signed integer; of the
fields all are excluded, or none but `_id` is.  A further clause leaves the selector alone, and the
compiled limit is 0 exactly if no limit is set. -/
theorem wellFormed_of_reachable {q : Query} (h : Reachable q) :
    (q.fields.map Prod.fst).Nodup ∧ (q.sort.map Prod.fst).Nodup ∧
    (∀ e ∈ q.sort, e.2.toInt = 1 ∨ e.2.toInt = -1) ∧
    (q.limit = -1 ∨ 1 ≤ q.limit) ∧ q.skip.toNat ≤ 2 ^ 63 - 1 ∧
    ((∀ e ∈ q.fields, e.2 = false) ∨ ∀ e ∈ q.fields, e.2 = false → e.1 = "_id") ∧
    (∀ c, (q.applyClause c).selector = q.selector) ∧
    ∀ o, (q.compile o).limit = 0 ↔ q.limit = -1 := by
  have hq := h.consistent
  have hskip := hq.skip
  refine ⟨hq.fields_nodup, hq.sort_nodup, ?_, hq.limit, by omega, hq.flags, ?_, ?_⟩
  · intro e he
    rcases hq.orders e he with horder | horder <;> rw [horder]
    · exact .inl rfl
    · exact .inr rfl
  · intro c
    exact selector_applyClause q c
  · intro o
    exact limit_compile_eq_zero_iff hq o

/-- A text selects two fields, sorts by one and limits the results; then a lone `exclude(_id)` adds
to the projection. -/
theorem wellFormed_of_reachable_refined :
    ∃ q : Query, Reachable q ∧ q.fields = [("a", true), ("b", true), ("_id", false)] ∧
      q.sort = [("b", .descending)] ∧ q.limit = 10 ∧ q.skip = 5 ∧
      (q.fields.map Prod.fst).Nodup ∧
      ((∀ e ∈ q.fields, e.2 = false) ∨ ∀ e ∈ q.fields, e.2 = false → e.1 = "_id") ∧
      ∀ o, (q.compile o).limit = 0 ↔ q.limit = -1 := by
  obtain ⟨r, hparse, hfields, hsort, hlimit, hskip⟩ : ∃ r,
      parseQuery "select(a,b)&sort(-b)&limit(10,5)" = .ok r ∧
        r.fields = [("a", true), ("b", true)] ∧ r.sort = [("b", .descending)] ∧ r.limit = 10 ∧
        r.skip = 5 := by
    refine ⟨_, by with_unfolding_all rfl, ?_⟩
    decide +kernel
  let c : Clause := ⟨"exclude", [.value (.string "_id")]⟩
  have hreachable : Reachable (r.applyClause c) :=
    (Relation.ReflTransGen.single (.text .queries _ hparse)).tail (.clause r c)
  obtain ⟨hnodup, -, -, -, -, hflags, -, hcompile⟩ := wellFormed_of_reachable hreachable
  refine ⟨r.applyClause c, hreachable, ?_, hsort, hlimit, hskip, hnodup, hflags, hcompile⟩
  change (r.project false c.args).fields = _
  rw [fields_project]
  simp [c, hfields, isIdOnly, Node.path?, Value.pathSegment?, Entries.upsert]

end Query

end ResourceQuery
