import ResourceQuery.Proofs.Entries
import ResourceQuery.Proofs.Parser.Clauses

/-!
# What clauses do to a query

Every clause sets its own part of a query and leaves the others alone.  `select` and `exclude` share
one part: each takes the place of what the other has said, but a lone `exclude(_id)` adds to it.  So
of the fields of a query either all are excluded, or at most `_id` is.  No field and no sort key is
named twice, and a sort key is ascending or descending.

## Main definitions

* `Query.IsPart`: a part of a query that clauses of some names set, and no others
* `Query.Consistent`: what is true of the parts of every query
* `Query.AllKeys`: all fields and sort keys have a property

## Main results

* `Query.consistent_ofClauses`: clauses make consistent queries
* `Query.IsPart.ofClauses`: a part of a query depends on the clauses of some names only
-/

namespace ResourceQuery

theorem SortOrder.ascending_ne_descending : ascending ≠ descending := by decide

namespace Query

/-! ## One part for each clause -/

/-- The fields after a projection: the paths that it names, put one by one into what is kept of the
fields before. -/
theorem fields_project (q : Query) (included : Bool) (args : List Node) :
    (q.project included args).fields =
      ((args.filterMap Node.path?).map fun k => (k, included)).foldl
        (fun s k => Entries.upsert s k.1 k.2)
        (if !included && isIdOnly args then q.fields else []) := by
  rw [List.foldl_map]
  rfl

/-- What a clause does, by its name. -/
theorem applyClause_cases (q : Query) (c : Clause) :
    (c.name = "select" ∧ q.applyClause c = q.project true c.args) ∨
    (c.name = "exclude" ∧ q.applyClause c = q.project false c.args) ∨
    (c.name = "sort" ∧ q.applyClause c = q.sortBy c.args) ∨
    (c.name = "limit" ∧ q.applyClause c = q.page c.args) ∨
    (c.name ∉ Dialect.queryClauses ∧ q.applyClause c = q) := by
  unfold applyClause applyClause?
  split_ifs with hselect hexclude hsort hlimit
  · exact .inl ⟨hselect, rfl⟩
  · exact .inr (.inl ⟨hexclude, rfl⟩)
  · exact .inr (.inr (.inl ⟨hsort, rfl⟩))
  · exact .inr (.inr (.inr (.inl ⟨hlimit, rfl⟩)))
  · exact .inr (.inr (.inr (.inr ⟨by simp [Dialect.queryClauses, *], rfl⟩)))

/-- A part of a query that clauses of some names set, and no others, and that what was there before
determines. -/
structure IsPart {α : Type} (part : Query → α) (names : List String) : Prop where
  keeps : ∀ q c, c.name ∉ names → part (q.applyClause c) = part q
  congr : ∀ {q r}, part q = part r → ∀ c, part (q.applyClause c) = part (r.applyClause c)

/-- `select` and `exclude` set the fields. -/
theorem isPart_fields : IsPart fields ["select", "exclude"] where
  keeps q c hc := by
    rcases applyClause_cases q c with ⟨h, -⟩ | ⟨h, -⟩ | ⟨-, h⟩ | ⟨-, h⟩ | ⟨-, h⟩
    · simp [h] at hc
    · simp [h] at hc
    all_goals simp [h, sortBy, page]
  congr {q r} hqr c := by
    unfold applyClause applyClause?
    split_ifs <;> simp [project, sortBy, page, hqr]

/-- `sort` sets the sort keys. -/
theorem isPart_sort : IsPart sort ["sort"] where
  keeps q c hc := by
    rcases applyClause_cases q c with ⟨-, h⟩ | ⟨-, h⟩ | ⟨h, -⟩ | ⟨-, h⟩ | ⟨-, h⟩
    case inr.inr.inl => simp [h] at hc
    all_goals simp [h, project, page]
  congr {q r} hqr c := by
    unfold applyClause applyClause?
    split_ifs <;> simp [project, sortBy, page, hqr]

/-- The limit and the number of skipped results. -/
def window (q : Query) : Int64 × UInt64 := (q.limit, q.skip)

/-- `limit` sets the window. -/
theorem isPart_window : IsPart window ["limit"] where
  keeps q c hc := by
    rcases applyClause_cases q c with ⟨-, h⟩ | ⟨-, h⟩ | ⟨-, h⟩ | ⟨h, -⟩ | ⟨-, h⟩
    case inr.inr.inr.inl => simp [h] at hc
    all_goals simp [h, window, project, sortBy]
  congr {q r} hqr c := by
    simp only [window, Prod.mk.injEq] at hqr
    unfold applyClause applyClause?
    split_ifs <;> simp [project, sortBy, page, window, hqr]

/-- Clauses that do not set a part may be left out, whatever else they change. -/
theorem IsPart.foldl_filter {α : Type} {part : Query → α} {names : List String}
    (h : IsPart part names) (cs : List Clause) {q r : Query} (hqr : part q = part r) :
    part (cs.foldl applyClause q) =
      part ((cs.filter fun c => names.contains c.name).foldl applyClause r) := by
  induction cs generalizing q r with
  | nil => exact hqr
  | cons c cs ih =>
    rw [List.foldl_cons, List.filter_cons]
    split_ifs with hc
    · exact ih (h.congr hqr c)
    · exact ih ((h.keeps q c (by simpa using hc)).trans hqr)

/-- **A part of a query** depends on the clauses that set it, and on no others. -/
theorem IsPart.ofClauses {α : Type} {part : Query → α} {names : List String}
    (h : IsPart part names) (s t : Term) (hpart : part { selector := s } = part { selector := t })
    (cs : List Clause) :
    part (Query.ofClauses s cs) =
      part (Query.ofClauses t (cs.filter fun c => names.contains c.name)) :=
  h.foldl_filter cs hpart

/-! ## Consistent queries -/

/-- What is true of the parts of every query. -/
structure Consistent (q : Query) : Prop where
  fields_nodup : (q.fields.map Prod.fst).Nodup
  /-- All fields are excluded, or no other than `_id` is. -/
  flags : (∀ e ∈ q.fields, e.2 = false) ∨ ∀ e ∈ q.fields, e.2 = false → e.1 = "_id"
  sort_nodup : (q.sort.map Prod.fst).Nodup
  orders : ∀ e ∈ q.sort, e.2 = .ascending ∨ e.2 = .descending
  limit : q.limit = -1 ∨ 1 ≤ q.limit
  skip : q.skip.toNat < 2 ^ 63

theorem path_of_isIdOnly {args : List Node} (h : isIdOnly args) :
    args.filterMap Node.path? = ["_id"] := by
  unfold isIdOnly at h
  split at h
  · rw [beq_iff_eq.mp h]
    rfl
  · cases h

/-- A projection keeps the flags consistent.  Only a lone `exclude(_id)` keeps fields that were set
before, and `_id` is the field that it adds; in all other cases the fields have one flag. -/
theorem flags_project {q : Query} (h : q.Consistent) (included : Bool) (args : List Node) :
    (∀ e ∈ (q.project included args).fields, e.2 = false) ∨
      ∀ e ∈ (q.project included args).fields, e.2 = false → e.1 = "_id" := by
  rw [fields_project]
  have hadded : ∀ {e : String × Bool},
      e ∈ (args.filterMap Node.path?).map (fun k => (k, included)) → e.2 = included := by
    intro e he
    obtain ⟨k, -, rfl⟩ := List.mem_map.mp he
    rfl
  cases included with
  | true =>
    right
    intro e he hfalse
    rcases Entries.mem_of_mem_foldl_upsert he with he | he
    · simp at he
    · simp [hadded he] at hfalse
  | false =>
    by_cases hid : isIdOnly args
    · -- The one field that is added is `_id`, and it is excluded.
      simp only [hid, Bool.not_false, Bool.and_self, if_true]
      refine h.flags.imp (fun hflags e he => ?_) fun hflags e he hfalse => ?_
      · rcases Entries.mem_of_mem_foldl_upsert he with he | he
        · exact hflags e he
        · exact hadded he
      · rcases Entries.mem_of_mem_foldl_upsert he with he | he
        · exact hflags e he hfalse
        · rw [path_of_isIdOnly hid] at he
          simp_all
    · left
      intro e he
      simp only [hid, Bool.and_false, Bool.false_eq_true, if_false] at he
      rcases Entries.mem_of_mem_foldl_upsert he with he | he
      · cases he
      · exact hadded he

/-- The direction that a sort path says is one of the two. -/
theorem sortKey_cases (path : String) :
    (sortKey path).2 = .ascending ∨ (sortKey path).2 = .descending := by
  unfold sortKey
  split
  · exact .inr rfl
  · exact .inl rfl
  · exact .inl rfl

/-- A sort key has one of the two directions. -/
theorem orders_sortBy (q : Query) (args : List Node) :
    ∀ e ∈ (q.sortBy args).sort, e.2 = .ascending ∨ e.2 = .descending := by
  intro e he
  rcases Entries.mem_of_mem_foldl_upsert he with he | he
  · cases he
  · obtain ⟨path, -, rfl⟩ := List.mem_map.mp he
    exact sortKey_cases path

/-- In a consistent query the sign of a direction says which of the two it is. -/
theorem Consistent.order_neg_iff {q : Query} (h : q.Consistent) {e : String × SortOrder}
    (he : e ∈ q.sort) : e.2 < 0 ↔ e.2 = .descending := by
  rcases h.orders e he with horder | horder <;> rw [horder] <;> decide

theorem limitOf_cases (n : Option Node) : limitOf n = -1 ∨ 1 ≤ limitOf n := by
  unfold limitOf
  split
  · split_ifs with h
    · exact .inr h
    · exact .inl rfl
  · exact .inl rfl

theorem toNat_toUInt64 {i : Int64} (h : 0 ≤ i) : (i.toUInt64.toNat : Int) = i.toInt := by
  have hnonneg := Int64.le_iff_toInt_le.mp h
  have hlt := i.toUInt64.toNat_lt
  have hcond := i.toBitVec.toInt_eq_toNat_cond
  change i.toInt = if 2 * i.toUInt64.toNat < 2 ^ 64 then _ else _ at hcond
  change (0 : Int) ≤ i.toInt at hnonneg
  split_ifs at hcond
  · exact hcond.symm
  · omega

theorem toNat_toUInt64_lt {i : Int64} (h : 0 ≤ i) : i.toUInt64.toNat < 2 ^ 63 := by
  have heq := toNat_toUInt64 h
  have hlt := i.toInt_lt
  omega

theorem skipOf_lt (n : Option Node) : (skipOf n).toNat < 2 ^ 63 := by
  unfold skipOf
  split
  · split_ifs with h
    · exact toNat_toUInt64_lt h
    · decide
  · decide

/-- One clause keeps a query consistent. -/
theorem Consistent.applyClause {q : Query} (h : q.Consistent) (c : Clause) :
    (q.applyClause c).Consistent := by
  have hproject : ∀ included, (q.project included c.args).Consistent := by
    intro included
    refine ⟨?_, flags_project h included c.args, h.sort_nodup, h.orders, h.limit, h.skip⟩
    rw [fields_project]
    refine Entries.nodup_foldl_upsert _ ?_
    split_ifs
    · exact h.fields_nodup
    · exact List.nodup_nil
  rcases applyClause_cases q c with ⟨-, heq⟩ | ⟨-, heq⟩ | ⟨-, heq⟩ | ⟨-, heq⟩ | ⟨-, heq⟩
  · rw [heq]
    exact hproject true
  · rw [heq]
    exact hproject false
  · rw [heq]
    exact ⟨h.fields_nodup, h.flags, Entries.nodup_foldl_upsert _ List.nodup_nil,
      orders_sortBy q c.args, h.limit, h.skip⟩
  · rw [heq]
    exact ⟨h.fields_nodup, h.flags, h.sort_nodup, h.orders, limitOf_cases _, skipOf_lt _⟩
  · rw [heq]
    exact h

/-- **Clauses make consistent queries.** -/
theorem consistent_ofClauses (t : Term) (cs : List Clause) : (ofClauses t cs).Consistent := by
  have hfold : ∀ {q : Query}, q.Consistent → (cs.foldl Query.applyClause q).Consistent := by
    induction cs with
    | nil => exact id
    | cons c cs ih => exact fun h => ih (h.applyClause c)
  exact hfold ⟨List.nodup_nil, .inl (by simp), List.nodup_nil, by simp, .inl rfl, by simp⟩

/-- All fields and sort keys have a property. -/
structure AllKeys (P : String → Prop) (q : Query) : Prop where
  fields : ∀ e ∈ q.fields, P e.1
  sort : ∀ e ∈ q.sort, P e.1

/-- A property of the paths that clauses name, also without their signs, is one of all keys. -/
theorem allKeys_ofClauses {P : String → Prop} (hsign : ∀ k, P k → P (sortKey k).1)
    {cs : List Clause} (h : ∀ c ∈ cs, ∀ k ∈ c.args.filterMap Node.path?, P k) (t : Term) :
    (ofClauses t cs).AllKeys P := by
  have hfold : ∀ {q : Query}, q.AllKeys P → (cs.foldl Query.applyClause q).AllKeys P := by
    induction cs with
    | nil => exact id
    | cons c cs ih =>
      intro q hq
      obtain ⟨hc, hcs⟩ := List.forall_mem_cons.mp h
      refine ih hcs ?_
      have hproject : ∀ included, (q.project included c.args).AllKeys P := by
        intro included
        refine ⟨fun e he => ?_, hq.sort⟩
        rw [fields_project] at he
        rcases Entries.mem_of_mem_foldl_upsert he with he | he
        · split_ifs at he
          · exact hq.fields e he
          · cases he
        · obtain ⟨k, hk, rfl⟩ := List.mem_map.mp he
          exact hc k hk
      rcases applyClause_cases q c with ⟨-, heq⟩ | ⟨-, heq⟩ | ⟨-, heq⟩ | ⟨-, heq⟩ | ⟨-, heq⟩
      · rw [heq]
        exact hproject true
      · rw [heq]
        exact hproject false
      · rw [heq]
        refine ⟨hq.fields, fun e he => ?_⟩
        rcases Entries.mem_of_mem_foldl_upsert he with he | he
        · cases he
        · obtain ⟨k, hk, rfl⟩ := List.mem_map.mp he
          exact hsign k (hc k hk)
      · rw [heq]
        exact ⟨hq.fields, hq.sort⟩
      · rw [heq]
        exact hq
  exact hfold ⟨by simp, by simp⟩

end Query

end ResourceQuery
