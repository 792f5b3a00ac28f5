import ResourceQuery.Json.Basic
import ResourceQuery.Proofs.Number.ReadBack

/-!
# JSON text determines its value

Two JSON values with the same compact text are the same value.  Inside of an array or an object a
value has a text around it, so the statement is about texts with something after them: if two
values are written in front of two rests and the whole texts agree, then so do the values and the
rests.  Strings, arrays and objects end by themselves; a number ends where a comma or a bracket
follows, which is all that ever follows one.

## Main definitions

* `Json.IsFinite`: every double is finite, as JSON has no other numbers
* `Json.Ends`: a rest that can follow a value
* `Json.Shape`: what the first character of a text gives away
* `Json.afterItem`, `Json.entryText`: what follows an item, and the text of an entry

## Main results

* `Json.escapeChar_append_inj`, `Json.quoted_append_inj`: characters and strings in quotes
* `Json.intercalate_append_inj`: items between commas, up to the bracket that closes them
* `Json.compact_append_inj`, `Json.compact_inj`: the text of a value determines it
-/

namespace ResourceQuery

namespace Json

/-- Every double in the value is finite. -/
inductive IsFinite : Json → Prop
  | null : IsFinite null
  | bool (b : Bool) : IsFinite (bool b)
  | int (n : Int) : IsFinite (int n)
  | float {x : Binary64} (hx : x.isFinite) : IsFinite (float x)
  | string (s : String) : IsFinite (string s)
  | array {items : List Json} (h : ∀ j ∈ items, IsFinite j) : IsFinite (array items)
  | object {entries : List (String × Json)} (h : ∀ e ∈ entries, IsFinite e.2) :
    IsFinite (object entries)

attribute [simp] IsFinite.null IsFinite.bool IsFinite.int IsFinite.string

/-! ## Strings -/

/-- The characters that are written with a backslash. -/
def escapedChars : List Char := '"' :: '\\' :: (List.range 32).map Char.ofNat

theorem exists_escapeChar_eq :
    ∀ c ∈ escapedChars, ∃ d rest, escapeChar c = '\\' :: d :: rest := by
  have hall : escapedChars.all fun c =>
      (escapeChar c).head? == some '\\' && 1 < (escapeChar c).length := by
    decide
  intro c hc
  have hmark := List.all_eq_true.mp hall c hc
  match h : escapeChar c with
  | [] => simp [h] at hmark
  | [d] => simp [h] at hmark
  | mark :: d :: rest =>
    simp only [h, List.head?_cons, Bool.and_eq_true, beq_iff_eq, Option.some.injEq] at hmark
    exact ⟨d, rest, by rw [hmark.1]⟩

theorem escapeChar_of_notMem {c : Char} (h : c ∉ escapedChars) : escapeChar c = [c] := by
  have hcontrol : 32 ≤ c.toNat := by
    by_contra hlt
    refine h (List.mem_cons_of_mem _ (List.mem_cons_of_mem _ (List.mem_map.mpr ⟨c.toNat, ?_, ?_⟩)))
    · exact List.mem_range.mpr (by omega)
    · exact Char.ofNat_toNat c
  have hquote : c ≠ '"' := fun hc => h (by simp [escapedChars, hc])
  have hmark : c ≠ '\\' := fun hc => h (by simp [escapedChars, hc])
  rw [escapeChar, if_neg hquote, if_neg hmark]
  repeat rw [if_neg (by omega)]

/-- No character's text is the front part of another's. -/
theorem escapeChar_prefixFree {c d : Char} (h : escapeChar c <+: escapeChar d) : c = d := by
  have hescaped : escapedChars.all fun c => escapedChars.all fun d =>
      (escapeChar c).isPrefixOf (escapeChar d) == (c == d) := by
    decide +kernel
  by_cases hc : c ∈ escapedChars
  · by_cases hd : d ∈ escapedChars
    · have hpair := List.all_eq_true.mp (List.all_eq_true.mp hescaped c hc) d hd
      rw [List.isPrefixOf_iff_prefix.mpr h] at hpair
      simpa using hpair
    · obtain ⟨e, rest, hescape⟩ := exists_escapeChar_eq c hc
      rw [hescape, escapeChar_of_notMem hd] at h
      simpa using h.length_le
  · rw [escapeChar_of_notMem hc] at h
    by_cases hd : d ∈ escapedChars
    · -- The backslash itself is escaped, so it stands for no character alone.
      obtain ⟨e, rest, hescape⟩ := exists_escapeChar_eq d hd
      rw [hescape] at h
      obtain rfl := (List.cons_prefix_cons.mp h).1
      exact absurd (by simp [escapedChars]) hc
    · rw [escapeChar_of_notMem hd] at h
      exact (List.cons_prefix_cons.mp h).1

/-- A character is read off the front of an escaped text. -/
theorem escapeChar_append_inj {c d : Char} {r s : List Char}
    (h : escapeChar c ++ r = escapeChar d ++ s) : c = d ∧ r = s := by
  obtain rfl : c = d := by
    rcases List.prefix_or_prefix_of_prefix (List.prefix_append (escapeChar c) r)
      (h ▸ List.prefix_append (escapeChar d) s) with hprefix | hprefix
    · exact escapeChar_prefixFree hprefix
    · exact (escapeChar_prefixFree hprefix).symm
  exact ⟨rfl, List.append_cancel_left h⟩

/-- No character's text starts with the quotation mark. -/
theorem quote_cons_ne (c : Char) (cs ds : List Char) : '"' :: cs ≠ escapeChar c ++ ds := by
  intro h
  by_cases hc : c ∈ escapedChars
  · obtain ⟨d, rest, hescape⟩ := exists_escapeChar_eq c hc
    simp [hescape] at h
  · rw [escapeChar_of_notMem hc] at h
    obtain rfl := (List.cons.inj h).1
    exact hc (by simp [escapedChars])

/-- The end of a string is the first quotation mark that belongs to no character. -/
theorem flatMap_escapeChar_append_inj {as bs r s : List Char}
    (h : as.flatMap escapeChar ++ '"' :: r = bs.flatMap escapeChar ++ '"' :: s) :
    as = bs ∧ r = s := by
  induction as generalizing bs with
  | nil =>
    cases bs with
    | nil => exact ⟨rfl, (List.cons.inj h).2⟩
    | cons b bs =>
      rw [List.flatMap_cons, List.append_assoc] at h
      exact absurd h (quote_cons_ne b _ _)
  | cons a as ih =>
    cases bs with
    | nil =>
      rw [List.flatMap_cons, List.append_assoc] at h
      exact absurd h.symm (quote_cons_ne a _ _)
    | cons b bs =>
      rw [List.flatMap_cons, List.flatMap_cons, List.append_assoc, List.append_assoc] at h
      obtain ⟨rfl, hrest⟩ := escapeChar_append_inj h
      obtain ⟨rfl, hr⟩ := ih hrest
      exact ⟨rfl, hr⟩

/-- A quoted string is read off the front of a text. -/
theorem quoted_append_inj {a b : String} {r s : List Char}
    (h : (quoted a).toList ++ r = (quoted b).toList ++ s) : a = b ∧ r = s := by
  have hchars : a.toList.flatMap escapeChar ++ '"' :: r =
      b.toList.flatMap escapeChar ++ '"' :: s := by
    simpa [quoted] using h
  obtain ⟨hab, hr⟩ := flatMap_escapeChar_append_inj hchars
  exact ⟨String.toList_inj.mp hab, hr⟩

/-! ## Numbers -/

/-- The characters that can follow a value. -/
def endingSigns : List Char := [',', ']', '\x7d']

/-- A text that can follow a value: nothing, a comma or a closing bracket. -/
def Ends (cs : List Char) : Prop := ∀ c ∈ cs.head?, c ∈ endingSigns

theorem ends_nil : Ends [] := by
  simp [Ends]

theorem ends_cons {c : Char} {cs : List Char} : Ends (c :: cs) ↔ c ∈ endingSigns := by
  simp [Ends]

/-- A decimal literal ends where something else follows. -/
theorem decimal_append_inj {as bs r s : List Char} (has : ∀ c ∈ as, Text.isDecimalChar c)
    (hbs : ∀ c ∈ bs, Text.isDecimalChar c) (hr : Ends r) (hs : Ends s) (h : as ++ r = bs ++ s) :
    as = bs ∧ r = s := by
  have hsigns : ∀ c ∈ endingSigns, !Text.isDecimalChar c := List.all_eq_true.mp (by decide)
  have htake : ∀ {cs rest : List Char}, (∀ c ∈ cs, Text.isDecimalChar c) → Ends rest →
      (cs ++ rest).takeWhile Text.isDecimalChar = cs := by
    intro cs rest hcs hrest
    rw [List.takeWhile_append_of_pos hcs]
    cases rest with
    | nil => simp
    | cons c rest =>
      rw [List.takeWhile_cons_of_neg (by simpa using hsigns c (ends_cons.mp hrest)),
        List.append_nil]
  obtain rfl : as = bs := by rw [← htake has hr, h, htake hbs hs]
  exact ⟨rfl, List.append_cancel_left h⟩

/-- The text of a double has a point or an exponent, which that of an integer has not. -/
theorem toList_integerText_ne_render (n : ℤ) (x : Binary64) :
    (integerText n).toList ≠ floatLayout.render x := by
  intro h
  have hdigit : ∀ c ∈ floatLayout.render x, c = '-' ∨ c.isDigit := fun c hc =>
    Literal.isDigit_of_mem_integerText (h ▸ hc)
  rcases NumberLayout.mark_mem_render (rfl : floatLayout.keepsPoint = true) x with hmark | hmark
  · exact absurd (hdigit _ hmark) (by decide)
  · exact absurd (hdigit _ hmark) (by decide)

/-! ## Items -/

section Items

variable {α : Type} {text : α → List Char} {close : Char}

/-- What follows an item: the other items after a comma, or else the rest. -/
def afterItem (text : α → List Char) (as : List α) (rest : List Char) : List Char :=
  if as = [] then rest else ',' :: ([','].intercalate (as.map text) ++ rest)

theorem intercalate_cons_append (a : α) (as : List α) (rest : List Char) :
    [','].intercalate ((a :: as).map text) ++ rest = text a ++ afterItem text as rest := by
  cases as <;> simp [afterItem]

/-- Items between commas can be told apart, up to the bracket that closes them, if each of them can
be told from every other in front of what follows it. -/
theorem intercalate_append_inj (text : α → List Char) (hclose : close ∈ [']', '\x7d'])
    {r s : List Char} {as bs : List α}
    (hhead : ∀ a ∈ as ++ bs, ∀ rest, ¬ Ends (text a ++ rest))
    (hinj : ∀ a ∈ as, ∀ b ∈ bs, ∀ {r s}, Ends r → Ends s → text a ++ r = text b ++ s →
      a = b ∧ r = s)
    (h : [','].intercalate (as.map text) ++ close :: r =
      [','].intercalate (bs.map text) ++ close :: s) : as = bs ∧ r = s := by
  have hends : ∀ rest, Ends (close :: rest) := fun rest =>
    ends_cons.mpr (List.mem_cons_of_mem _ hclose)
  have hafter : ∀ (as : List α) (rest : List Char), Ends (afterItem text as (close :: rest)) := by
    intro as rest
    unfold afterItem
    split
    · exact hends rest
    · exact ends_cons.mpr (by simp [endingSigns])
  have hcomma : close ≠ ',' := by
    rintro rfl
    simp at hclose
  induction as generalizing bs with
  | nil =>
    cases bs with
    | nil => exact ⟨rfl, (List.cons.inj h).2⟩
    | cons b bs =>
      rw [intercalate_cons_append] at h
      change close :: r = _ at h
      exact absurd (h ▸ hends r) (hhead b (by simp) _)
  | cons a as ih =>
    cases bs with
    | nil =>
      rw [intercalate_cons_append] at h
      change _ = close :: s at h
      exact absurd (h ▸ hends s) (hhead a (by simp) _)
    | cons b bs =>
      rw [intercalate_cons_append, intercalate_cons_append] at h
      obtain ⟨rfl, hrest⟩ := hinj a (by simp) b (by simp) (hafter as r) (hafter bs s) h
      unfold afterItem at hrest
      split_ifs at hrest with has hbs hbs
      · exact ⟨by rw [has, hbs], (List.cons.inj hrest).2⟩
      · exact absurd (List.cons.inj hrest).1 hcomma
      · exact absurd (List.cons.inj hrest).1.symm hcomma
      · obtain ⟨rfl, hr⟩ := ih (fun c hc => hhead c (by grind))
          (fun a ha b hb => hinj a (List.mem_cons_of_mem _ ha) b (List.mem_cons_of_mem _ hb))
          (List.cons.inj hrest).2
        exact ⟨rfl, hr⟩

end Items

/-! ## Values -/

/-- The kinds of values that differ in their first characters. -/
inductive Shape where
  | null
  | truth
  | number
  | string
  | array
  | object
deriving DecidableEq

def shape : Json → Shape
  | null => .null
  | bool _ => .truth
  | int _ | float _ => .number
  | string _ => .string
  | array _ => .array
  | object _ => .object

/-- The kind of value that a first character announces. -/
def Shape.ofChar? (c : Char) : Option Shape :=
  if Text.isDecimalChar c then some .number
  else [('n', .null), ('t', .truth), ('f', .truth), ('"', .string), ('[', .array),
    ('\x7b', .object)].lookup c

/-- The text of a key with its value. -/
def entryText (e : String × Json) : List Char := (quoted e.1).toList ++ ':' :: e.2.compact.toList

theorem map_toList_compactItems (items : List Json) :
    (compactItems items).map String.toList = items.map fun j => j.compact.toList := by
  induction items with
  | nil => rfl
  | cons j items ih => rw [compactItems, List.map_cons, List.map_cons, ih]

theorem map_toList_compactEntries (entries : List (String × Json)) :
    (compactEntries entries).map String.toList = entries.map entryText := by
  induction entries with
  | nil => rfl
  | cons e entries ih => simp [compactEntries, ih, entryText]

theorem toList_compact_array (items : List Json) : (array items).compact.toList =
    '[' :: ([','].intercalate (items.map fun j => j.compact.toList) ++ [']']) := by
  simp [compact, String.toList_intercalate, map_toList_compactItems]

theorem toList_compact_object (entries : List (String × Json)) : (object entries).compact.toList =
    '\x7b' :: ([','].intercalate (entries.map entryText) ++ ['\x7d']) := by
  simp [compact, String.toList_intercalate, map_toList_compactEntries]

/-- An integer and a finite double are written as literals. -/
theorem exists_parts_compact {j : Json} (hj : j.IsFinite) (h : j.shape = .number) :
    ∃ p : Literal.Parts, p.IsLiteral ∧ p.text = j.compact.toList := by
  cases hj with
  | int n => exact ⟨_, Literal.isLiteral_integer _ _, (Literal.toList_integerText n).symm⟩
  | @float x hx =>
    obtain ⟨p, hp, htext, -⟩ := floatLayout.exists_parts_render x
    exact ⟨p, hp, by rw [htext, compact, Number.floatText_of_isFinite floatLayout hx,
      String.toList_ofList]⟩
  | _ => cases h

/-- The first character of a text announces what the value is. -/
theorem exists_compact_eq_cons {j : Json} (h : j.IsFinite) :
    ∃ c cs, j.compact.toList = c :: cs ∧ Shape.ofChar? c = some j.shape := by
  have hnumber : j.shape = .number →
      ∃ c cs, j.compact.toList = c :: cs ∧ Shape.ofChar? c = some j.shape := by
    intro hshape
    obtain ⟨p, hp, htext⟩ := exists_parts_compact h hshape
    obtain ⟨c, cs, hcons⟩ := List.exists_cons_of_ne_nil (Literal.text_ne_nil hp)
    refine ⟨c, cs, htext ▸ hcons, ?_⟩
    rw [hshape, Shape.ofChar?, if_pos (Literal.isDecimalChar_text hp c (by simp [hcons]))]
  cases h with
  | null => exact ⟨'n', _, rfl, rfl⟩
  | bool b =>
    cases b with
    | true => exact ⟨'t', _, rfl, rfl⟩
    | false => exact ⟨'f', _, rfl, rfl⟩
  | int n => exact hnumber rfl
  | float hx => exact hnumber rfl
  | string s => exact ⟨'"', _, String.toList_ofList, rfl⟩
  | array h => exact ⟨'[', _, toList_compact_array _, rfl⟩
  | object h => exact ⟨'\x7b', _, toList_compact_object _, rfl⟩

/-- No value starts where one ends. -/
theorem not_ends_compact {j : Json} (h : j.IsFinite) (rest : List Char) :
    ¬ Ends (j.compact.toList ++ rest) := by
  have hsigns : ∀ c ∈ endingSigns, (Shape.ofChar? c).isNone := List.all_eq_true.mp (by decide)
  obtain ⟨c, cs, hcons, hshape⟩ := exists_compact_eq_cons h
  rw [hcons, List.cons_append, ends_cons]
  intro hc
  have hnone := hsigns c hc
  rw [hshape] at hnone
  cases hnone

theorem shape_eq_of_compact_append {a b : Json} (ha : a.IsFinite) (hb : b.IsFinite)
    {r s : List Char} (h : a.compact.toList ++ r = b.compact.toList ++ s) : a.shape = b.shape := by
  obtain ⟨c, cs, hcons, hshape⟩ := exists_compact_eq_cons ha
  obtain ⟨d, ds, hcons', hshape'⟩ := exists_compact_eq_cons hb
  rw [hcons, hcons', List.cons_append, List.cons_append] at h
  obtain ⟨rfl, -⟩ := List.cons.inj h
  exact Option.some.inj (hshape.symm.trans hshape')

/-- Numbers are told apart by their texts, an integer from a double as well. -/
theorem number_inj {a b : Json} (ha : a.IsFinite) (hb : b.IsFinite) (has : a.shape = .number)
    (hbs : b.shape = .number) (h : a.compact.toList = b.compact.toList) : a = b := by
  have hfloat : ∀ {x : Binary64}, x.isFinite →
      (float x).compact.toList = floatLayout.render x := by
    intro x hx
    rw [compact, Number.floatText_of_isFinite floatLayout hx, String.toList_ofList]
  cases ha with
  | int m =>
    cases hb with
    | int n => rw [Literal.integerText_inj (String.toList_inj.mp h)]
    | float hy => exact absurd (h.trans (hfloat hy)) (toList_integerText_ne_render m _)
    | _ => cases hbs
  | float hx =>
    cases hb with
    | int n => exact absurd (h.symm.trans (hfloat hx)) (toList_integerText_ne_render n _)
    | float hy => rw [floatLayout.render_inj hx hy (by rw [← hfloat hx, h, hfloat hy])]
    | _ => cases hbs
  | _ => cases has

/-- A number in front of what can follow it. -/
theorem number_append_inj {a b : Json} (ha : a.IsFinite) (hb : b.IsFinite)
    (has : a.shape = .number) (hbs : b.shape = .number) {r s : List Char} (hr : Ends r)
    (hs : Ends s) (h : a.compact.toList ++ r = b.compact.toList ++ s) : a = b ∧ r = s := by
  obtain ⟨p, hp, hptext⟩ := exists_parts_compact ha has
  obtain ⟨q, hq, hqtext⟩ := exists_parts_compact hb hbs
  obtain ⟨htext, hrest⟩ := decimal_append_inj (hptext ▸ Literal.isDecimalChar_text hp)
    (hqtext ▸ Literal.isDecimalChar_text hq) hr hs h
  exact ⟨number_inj ha hb has hbs htext, hrest⟩

/-- **The text of a value determines it**, and where it ends. -/
theorem compact_append_inj {a b : Json} (ha : a.IsFinite) (hb : b.IsFinite) {r s : List Char}
    (hr : Ends r) (hs : Ends s) (h : a.compact.toList ++ r = b.compact.toList ++ s) :
    a = b ∧ r = s := by
  have hshape := shape_eq_of_compact_append ha hb h
  induction ha generalizing b r s with
  | null =>
    cases hb with
    | null => exact ⟨rfl, List.append_cancel_left h⟩
    | _ => cases hshape
  | bool x =>
    cases hb with
    | bool y => cases x <;> cases y <;> simp_all [compact]
    | _ => cases hshape
  | int m => exact number_append_inj (.int m) hb rfl hshape.symm hr hs h
  | float hx => exact number_append_inj (.float hx) hb rfl hshape.symm hr hs h
  | string s =>
    cases hb with
    | string t =>
      obtain ⟨rfl, hrest⟩ := quoted_append_inj h
      exact ⟨rfl, hrest⟩
    | _ => cases hshape
  | array hitems ih =>
    cases hb with
    | array hitems' =>
      rw [toList_compact_array, toList_compact_array] at h
      obtain ⟨rfl, hrest⟩ := intercalate_append_inj (fun j => j.compact.toList)
        (by simp : ']' ∈ _)
        (fun j hj => not_ends_compact ((List.mem_append.mp hj).elim (hitems j) (hitems' j)))
        (fun j hj k hk {_ _} hr hs heq => ih j hj (hitems' k hk) hr hs heq
          (shape_eq_of_compact_append (hitems j hj) (hitems' k hk) heq))
        (by simpa using h)
      exact ⟨rfl, hrest⟩
    | _ => cases hshape
  | object hentries ih =>
    cases hb with
    | object hentries' =>
      rw [toList_compact_object, toList_compact_object] at h
      obtain ⟨rfl, hrest⟩ := intercalate_append_inj entryText (by simp : '\x7d' ∈ _)
        (fun e he rest => by simp [entryText, quoted, ends_cons, endingSigns])
        (fun e he f hf {_ _} hr hs heq => by
          simp only [entryText, List.append_assoc, List.cons_append] at heq
          obtain ⟨hkey, hvalue⟩ := quoted_append_inj heq
          obtain ⟨hj, hrest⟩ := ih e he (hentries' f hf) hr hs (List.cons.inj hvalue).2
            (shape_eq_of_compact_append (hentries e he) (hentries' f hf) (List.cons.inj hvalue).2)
          exact ⟨Prod.ext hkey hj, hrest⟩)
        (by simpa using h)
      exact ⟨rfl, hrest⟩
    | _ => cases hshape

/-- **The text of finite JSON determines it.** -/
theorem compact_inj {a b : Json} (ha : a.IsFinite) (hb : b.IsFinite) (h : a.compact = b.compact) :
    a = b :=
  (compact_append_inj ha hb ends_nil ends_nil (by rw [h])).1

end Json

end ResourceQuery
