import ResourceQuery.Filter.Document
import ResourceQuery.Proofs.Entries

/-!
# What merging does to a document

Adding an entry to a document either puts it at the end or joins it to the operators that are
there on its path.  Everything about merged documents follows from this; so a document that is merged
from nothing has distinct keys.

## Main definitions

* `Document.keys`: the keys of a document, in order
* `Document.Merges`: a document with an entry added

## Main results

* `Document.merges_of_mergeEntry?`: what adding an entry does
* `Document.merge_cases`: what joining documents does
-/

namespace ResourceQuery

namespace Document

/-- The keys of a document, in order. -/
def keys (d : Document) : List String := d.map Prod.fst

@[simp] theorem keys_nil : keys [] = [] := rfl

@[simp] theorem keys_cons (e : String × Value) (d : Document) : keys (e :: d) = e.1 :: keys d := rfl

@[simp] theorem keys_append (a b : Document) : keys (a ++ b) = keys a ++ keys b :=
  List.map_append

/-- The document with an entry added: at its end, or joined to the operators on its path. -/
inductive Merges (d : Document) (key : String) (v : Value) : Document → Prop
  | appended (h : key ∉ keys d) : Merges d key v (d ++ [(key, v)])
  | joined {before after a b : Document} (hd : d = before ++ (key, .object a) :: after)
      (hv : v = .object b) (ha : isOperators a) (hb : isOperators b) (hab : overlap a b = false) :
      Merges d key v (before ++ (key, .object (a ++ b)) :: after)

/-- A key that is not found is not there. -/
theorem lookup_eq_none {d : Document} {key : String} (h : d.lookup key = none) :
    key ∉ keys d := by
  intro hmem
  obtain ⟨⟨_, v⟩, hv, rfl⟩ := List.mem_map.mp hmem
  simpa using List.lookup_eq_none_iff.mp h _ hv

/-- Adding an entry to a document. -/
theorem merges_of_mergeEntry? {d d' : Document} {key : String} {v : Value}
    (h : d.mergeEntry? key v = some d') : d.Merges key v d' := by
  unfold mergeEntry? at h
  split at h
  · next hnone =>
    cases h
    exact .appended (lookup_eq_none hnone)
  · next current hsome =>
    obtain ⟨before, after, rfl, hbefore⟩ := Entries.exists_of_lookup_eq_some hsome
    split at h
    · next a b =>
      split_ifs at h with hjoin
      cases h
      simp only [Bool.and_eq_true, Bool.not_eq_true'] at hjoin
      rw [Entries.upsert_append_cons hbefore]
      exact .joined rfl rfl hjoin.1.1 hjoin.1.2 hjoin.2
    · cases h

/-- Adding an entry keeps the keys distinct, for a joined entry has the key it had before. -/
theorem Merges.keys_nodup {d d' : Document} {key : String} {v : Value} (h : d.Merges key v d')
    (hd : d.keys.Nodup) : d'.keys.Nodup := by
  cases h with
  | appended hkey =>
    rw [keys_append, List.nodup_append]
    refine ⟨hd, by simp, fun k hk l hl => ?_⟩
    rintro rfl
    obtain rfl : k = key := by simpa using hl
    exact hkey hk
  | joined hd' =>
    subst hd'
    simpa using hd

/-- A relation between a document and the entries merged into it so far is kept by merging more
entries, if adding one keeps it. -/
theorem mergeEntries?_induction_from {motive : Document → Document → Prop}
    (step : ∀ d d' seen key v, d.Merges key v d' → motive d seen → motive d' (seen ++ [(key, v)]))
    {d d' seen entries : Document} (hseen : motive d seen)
    (h : mergeEntries? d entries = some d') : motive d' (seen ++ entries) := by
  induction entries generalizing d seen with
  | nil =>
    cases h
    simpa using hseen
  | cons e entries ih =>
    obtain ⟨key, v⟩ := e
    obtain ⟨d₁, hmerge, h⟩ := Option.bind_eq_some_iff.mp h
    have hmerges := merges_of_mergeEntry? hmerge
    have hrest := ih (step d d₁ seen key v hmerges hseen) h
    rwa [List.append_assoc, List.singleton_append] at hrest

/-- What holds of a document merged from entries, if it holds of nothing and adding an entry
keeps it. -/
theorem mergeEntries?_induction {motive : Document → Document → Prop} (nil : motive [] [])
    (step : ∀ d d' seen key v, d.Merges key v d' → motive d seen → motive d' (seen ++ [(key, v)]))
    {d entries : Document} (h : mergeEntries? [] entries = some d) : motive d entries := by
  simpa using mergeEntries?_induction_from step nil h

/-- Joining documents merges all their entries, or keeps the documents apart under `$and`. -/
theorem merge_cases (docs : List Document) :
    docs = [merge docs] ∨ mergeEntries? [] docs.flatten = some (merge docs) ∨
      merge docs = [("$and", listed docs)] := by
  unfold merge
  split
  · exact .inl rfl
  · cases h : mergeEntries? [] docs.flatten with
    | none => exact .inr (.inr rfl)
    | some d => exact .inr (.inl rfl)

end Document

end ResourceQuery
