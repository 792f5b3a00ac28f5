import Mathlib.Data.List.Nodup
import Mathlib.Data.List.Perm.Subperm
import ResourceQuery.Entries

/-!
# What setting a key does to entries

Setting a key changes the first entry that has it and no other, or it adds an entry at the end.  So
distinct keys stay distinct, and entries with different keys that are set one after the other are
simply appended.

## Main results

* `Entries.upsert_of_notMem`, `Entries.upsert_append_cons`: the two things that setting a key does
* `Entries.nodup_foldl_upsert`: keys stay distinct
* `Entries.foldl_upsert_of_nodup`: entries with different keys are set one after the other
* `Entries.lookup_eq_some_iff`: with distinct keys every entry can be found
-/

namespace ResourceQuery

namespace Entries

variable {α : Type} {entries : List (String × α)} {key : String} {value : α}

/-- A key that is not there is added at the end. -/
theorem upsert_of_notMem (h : key ∉ entries.map Prod.fst) :
    upsert entries key value = entries ++ [(key, value)] := by
  induction entries with
  | nil => rfl
  | cons e entries ih =>
    rw [List.map_cons, List.mem_cons, not_or] at h
    rw [upsert, if_neg (Ne.symm h.1), ih h.2, List.cons_append]

/-- Of the entries with a key the first one is changed, and what follows it is left alone. -/
theorem upsert_append_cons {before after : List (String × α)} {old : α}
    (h : key ∉ before.map Prod.fst) :
    upsert (before ++ (key, old) :: after) key value = before ++ (key, value) :: after := by
  induction before with
  | nil => rw [List.nil_append, upsert, if_pos rfl, List.nil_append]
  | cons e before ih =>
    rw [List.map_cons, List.mem_cons, not_or] at h
    rw [List.cons_append, upsert, if_neg (Ne.symm h.1), ih h.2, List.cons_append]

theorem keys_upsert_of_mem (h : key ∈ entries.map Prod.fst) :
    (upsert entries key value).map Prod.fst = entries.map Prod.fst := by
  induction entries with
  | nil => cases h
  | cons e entries ih =>
    rw [upsert]
    split_ifs with hkey
    · rw [List.map_cons, List.map_cons, hkey]
    · rw [List.map_cons, List.mem_cons] at h
      rw [List.map_cons, List.map_cons, ih (h.resolve_left (Ne.symm hkey))]

theorem nodup_upsert (h : (entries.map Prod.fst).Nodup) :
    ((upsert entries key value).map Prod.fst).Nodup := by
  by_cases hkey : key ∈ entries.map Prod.fst
  · rwa [keys_upsert_of_mem hkey]
  · rw [upsert_of_notMem hkey, List.map_append]
    simpa using List.Nodup.concat hkey h

theorem mem_of_mem_upsert {e : String × α} (h : e ∈ upsert entries key value) :
    e ∈ entries ∨ e = (key, value) := by
  induction entries with
  | nil => exact .inr (List.mem_singleton.mp h)
  | cons d entries ih =>
    rw [upsert] at h
    split_ifs at h
    · exact (List.mem_cons.mp h).symm.imp_left (List.mem_cons_of_mem d)
    · rcases List.mem_cons.mp h with rfl | h
      · exact .inl List.mem_cons_self
      · exact (ih h).imp_left (List.mem_cons_of_mem d)

/-- Setting keys one after the other keeps them distinct. -/
theorem nodup_foldl_upsert (ks : List (String × α)) (h : (entries.map Prod.fst).Nodup) :
    ((ks.foldl (fun s k => upsert s k.1 k.2) entries).map Prod.fst).Nodup := by
  induction ks generalizing entries with
  | nil => exact h
  | cons k ks ih => exact ih (nodup_upsert h)

/-- Nothing is there but what was there before or was set. -/
theorem mem_of_mem_foldl_upsert {ks : List (String × α)} {e : String × α}
    (h : e ∈ ks.foldl (fun s k => upsert s k.1 k.2) entries) : e ∈ entries ∨ e ∈ ks := by
  induction ks generalizing entries with
  | nil => exact .inl h
  | cons k ks ih =>
    rcases ih h with he | he
    · rcases mem_of_mem_upsert he with he | rfl
      · exact .inl he
      · exact .inr List.mem_cons_self
    · exact .inr (List.mem_cons_of_mem k he)

/-- **Entries with different keys** are added one after the other. -/
theorem foldl_upsert_of_nodup {ks : List (String × α)}
    (h : ((entries ++ ks).map Prod.fst).Nodup) :
    ks.foldl (fun s k => upsert s k.1 k.2) entries = entries ++ ks := by
  induction ks generalizing entries with
  | nil => simp
  | cons k ks ih =>
    rw [← List.singleton_append, ← List.append_assoc] at h
    have hfresh : k.1 ∉ entries.map Prod.fst := by
      rw [List.map_append, List.map_append] at h
      exact fun hmem => (List.nodup_append.mp (List.nodup_append.mp h).1).2.2 k.1 hmem k.1
        (by simp) rfl
    rw [List.foldl_cons, upsert_of_notMem hfresh, ih h, List.append_assoc, List.singleton_append]

/-- Entries that are added without any of them taking the place of another are added as they are:
the result has distinct keys and nothing but what was added, so it is all of that. -/
theorem eq_of_foldl_upsert {ks es : List (String × α)}
    (h : ks.foldl (fun s k => upsert s k.1 k.2) [] = es) (hlength : ks.length ≤ es.length) :
    ks = es := by
  have hsubset : es ⊆ ks := fun e he =>
    (mem_of_mem_foldl_upsert (h ▸ he)).resolve_left List.not_mem_nil
  have hnodup : (es.map Prod.fst).Nodup := h ▸ nodup_foldl_upsert ks List.nodup_nil
  have hperm : es.Perm ks := (hnodup.of_map.subperm hsubset).perm_of_length_le hlength
  have hkeys : (ks.map Prod.fst).Nodup := (hperm.map Prod.fst).nodup_iff.mp hnodup
  have hadded : ks.foldl (fun s k => upsert s k.1 k.2) [] = ks := foldl_upsert_of_nodup hkeys
  exact hadded.symm.trans h

/-! ## Looking keys up -/

theorem lookup_eq_some_iff (h : (entries.map Prod.fst).Nodup) :
    entries.lookup key = some value ↔ (key, value) ∈ entries := by
  induction entries with
  | nil => simp
  | cons e entries ih =>
    obtain ⟨hnotMem, hnodup⟩ := List.nodup_cons.mp h
    rw [List.lookup_cons, List.mem_cons]
    by_cases hkey : key = e.1
    · subst hkey
      have habsent : (e.1, value) ∉ entries := fun hmem =>
        hnotMem (List.mem_map.mpr ⟨(e.1, value), hmem, rfl⟩)
      simp [habsent, Prod.ext_iff, eq_comm]
    · have htest : (key == e.1) = false := beq_eq_false_iff_ne.mpr hkey
      simp [htest, hkey, ih hnodup, Prod.ext_iff]

/-- The order of entries does not matter for what is found. -/
theorem lookup_eq_of_perm {as bs : List (String × α)} (h : (as.map Prod.fst).Nodup)
    (hperm : as.Perm bs) (key : String) : as.lookup key = bs.lookup key := by
  have hbs : (bs.map Prod.fst).Nodup := (hperm.map Prod.fst).nodup_iff.mp h
  refine Option.ext fun value => ?_
  rw [lookup_eq_some_iff h, lookup_eq_some_iff hbs, hperm.mem_iff]

/-- A key that is found stands behind entries with other keys. -/
theorem exists_of_lookup_eq_some (h : entries.lookup key = some value) :
    ∃ before after, entries = before ++ (key, value) :: after ∧ key ∉ before.map Prod.fst := by
  obtain ⟨before, after, rfl, hbefore⟩ := List.lookup_eq_some_iff.mp h
  refine ⟨before, after, rfl, fun hmem => ?_⟩
  obtain ⟨e, he, rfl⟩ := List.mem_map.mp hmem
  simpa using hbefore e he

end Entries

end ResourceQuery
