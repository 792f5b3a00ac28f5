import Mathlib.Data.List.Infix
import ResourceQuery.Token

/-!
# Balanced parentheses

Tokens are balanced if no front part of them closes more parentheses than it opens, and all of
them close as many as they open.  What stands directly in a group is what only balanced tokens
separate from the group's end, so statements about groups are statements about balanced suffixes,
and these are compared by counting.

## Main definitions

* `Token.Balanced`: the parentheses of some tokens are balanced
* `Token.Reaches`: nothing but balanced tokens stands between some tokens and the end

## Main results

* `Token.Balanced.not_opening_suffix`: balanced tokens leave no `(` open
* `Token.reaches_concat_iff`, `Token.reaches_opening_iff`, `Token.reaches_group_iff`: what reaches
  over a token, a `(` and a finished group
-/

namespace ResourceQuery

namespace Token

/-- The parentheses are balanced: no front part closes more than it opens, and the whole closes
as many as it opens. -/
structure Balanced (ts : List Token) : Prop where
  nested : ∀ us, us <+: ts → us.count closing ≤ us.count opening
  closed : ts.count closing = ts.count opening

variable {ts us vs : List Token}

theorem balanced_nil : Balanced [] := by
  refine ⟨fun us hus => ?_, rfl⟩
  simp [List.prefix_nil.mp hus]

theorem Balanced.append (hus : Balanced us) (hvs : Balanced vs) : Balanced (us ++ vs) where
  nested as has := by
    rcases List.prefix_or_prefix_of_prefix has (List.prefix_append us vs) with has | ⟨bs, rfl⟩
    · exact hus.nested as has
    · have := hvs.nested bs ((List.prefix_append_right_inj us).mp has)
      have := hus.closed
      simp only [List.count_append]
      omega
  closed := by
    rw [List.count_append, List.count_append, hus.closed, hvs.closed]

theorem Balanced.of_append_right (h : Balanced (us ++ vs)) (hvs : Balanced vs) : Balanced us where
  nested as has := h.nested as (has.trans (List.prefix_append us vs))
  closed := by
    have := h.closed
    have := hvs.closed
    simp only [List.count_append] at *
    omega

theorem balanced_singleton {t : Token} (hopening : t ≠ opening) (hclosing : t ≠ closing) :
    Balanced [t] where
  nested us hus := by
    rcases List.prefix_cons_iff.mp hus with rfl | ⟨us', rfl, hus'⟩
    · simp
    · simp [List.prefix_nil.mp hus', hopening, hclosing]
  closed := by simp [hopening, hclosing]

/-- Parentheses around balanced tokens are balanced. -/
theorem Balanced.group (h : Balanced ts) : Balanced (opening :: (ts ++ [closing])) where
  nested us hus := by
    rcases List.prefix_cons_iff.mp hus with rfl | ⟨us', rfl, hus'⟩
    · simp
    · rcases List.prefix_concat_iff.mp hus' with rfl | hus'
      · have := h.closed
        simp
        omega
      · have := h.nested us' hus'
        simp
        omega
  closed := by
    have := h.closed
    simp
    omega

/-- No back part of balanced tokens opens more than it closes. -/
theorem Balanced.count_le_of_suffix (h : Balanced ts) (hus : us <:+ ts) :
    us.count opening ≤ us.count closing := by
  obtain ⟨vs, rfl⟩ := hus
  have := h.nested vs (List.prefix_append vs us)
  have := h.closed
  simp only [List.count_append] at *
  omega

/-- Balanced tokens leave no `(` open. -/
theorem Balanced.not_opening_suffix (h : Balanced ts) (hus : Balanced us) :
    ¬ opening :: us <:+ ts := by
  intro hsuffix
  have := h.count_le_of_suffix hsuffix
  have := hus.closed
  simp at *
  omega

/-! ## What reaches the end -/

/-- Nothing but balanced tokens stands between some tokens and the end. -/
def Reaches (us ts : List Token) : Prop := ∃ vs, Balanced vs ∧ us ++ vs <:+ ts

theorem reaches_of_suffix (h : us <:+ ts) : Reaches us ts :=
  ⟨[], balanced_nil, by simpa using h⟩

/-- Balanced tokens at the end do not change what is in reach. -/
theorem Reaches.append (h : Reaches us ts) (hvs : Balanced vs) : Reaches us (ts ++ vs) := by
  obtain ⟨ws, hws, hsuffix⟩ := h
  refine ⟨ws ++ vs, hws.append hvs, ?_⟩
  rw [← List.append_assoc]
  exact List.suffix_append_self_iff.mpr hsuffix

/-- The tokens in between end with the last token, if there are any. -/
theorem Reaches.concat_cases {t : Token} (h : Reaches us (ts ++ [t])) :
    us <:+ ts ++ [t] ∨ ∃ vs, Balanced (vs ++ [t]) ∧ us ++ vs <:+ ts := by
  obtain ⟨vs, hvs, ws, heq⟩ := h
  rcases List.eq_nil_or_concat vs with rfl | ⟨vs, u, rfl⟩
  · exact .inl ⟨ws, by simpa using heq⟩
  · rw [List.concat_eq_append] at hvs heq
    rw [← List.append_assoc, ← List.append_assoc] at heq
    obtain ⟨rfl, rfl⟩ := List.append_singleton_inj.mp heq
    exact .inr ⟨vs, hvs, by simp⟩

/-- A token that is no parenthesis is passed over. -/
theorem reaches_concat_iff {t : Token} (hopening : t ≠ opening) (hclosing : t ≠ closing) :
    Reaches us (ts ++ [t]) ↔ us <:+ ts ++ [t] ∨ Reaches us ts := by
  have ht := balanced_singleton hopening hclosing
  refine ⟨fun h => ?_, fun h => h.elim reaches_of_suffix fun h => h.append ht⟩
  rcases h.concat_cases with hsuffix | ⟨vs, hvs, hsuffix⟩
  · exact .inl hsuffix
  · exact .inr ⟨vs, hvs.of_append_right ht, hsuffix⟩

/-- Nothing before a `(` reaches over it, until it is closed. -/
theorem reaches_opening_iff : Reaches us (ts ++ [opening]) ↔ us <:+ ts ++ [opening] := by
  refine ⟨fun h => ?_, reaches_of_suffix⟩
  rcases h.concat_cases with hsuffix | ⟨vs, hvs, -⟩
  · exact hsuffix
  · exact absurd (List.suffix_append vs [opening]) (hvs.not_opening_suffix balanced_nil)

/-- A finished group is passed over as a whole. -/
theorem reaches_group_iff (hvs : Balanced vs) (hus : ¬ [closing] <:+ us) :
    Reaches us (ts ++ opening :: (vs ++ [closing])) ↔ Reaches us ts := by
  refine ⟨?_, fun h => h.append hvs.group⟩
  rintro ⟨ws, hws, hsuffix⟩
  -- The balanced tokens are a part of the group, or the group is a part of them.
  rcases List.suffix_or_suffix_of_suffix ((List.suffix_append us ws).trans hsuffix)
    (List.suffix_append ts (opening :: (vs ++ [closing]))) with hpart | ⟨xs, rfl⟩
  · rcases List.suffix_cons_iff.mp hpart with rfl | hpart
    · exact reaches_of_suffix (List.suffix_append_self_iff.mp hsuffix)
    · rcases List.suffix_concat_iff.mp hpart with rfl | ⟨xs, rfl, hxs⟩
      · -- What ends with the group ends with its `)`.
        rw [List.append_nil] at hsuffix
        have hlast : [closing] <:+ ts ++ opening :: (vs ++ [closing]) :=
          ⟨ts ++ opening :: vs, by simp⟩
        rcases List.suffix_or_suffix_of_suffix hlast hsuffix with hend | hend
        · exact absurd hend hus
        · rcases List.suffix_cons_iff.mp hend with rfl | hend
          · exact absurd List.suffix_rfl hus
          · rw [List.suffix_nil.mp hend]
            exact reaches_of_suffix List.nil_suffix
      · -- A part of the inside would have to open what the `)` closes.
        have := hvs.count_le_of_suffix hxs
        have := hws.closed
        simp at this
        omega
  · rw [← List.append_assoc, List.suffix_append_self_iff] at hsuffix
    exact ⟨xs, hws.of_append_right hvs.group, hsuffix⟩

end Token

end ResourceQuery
