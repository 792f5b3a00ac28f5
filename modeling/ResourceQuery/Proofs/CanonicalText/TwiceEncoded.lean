import ResourceQuery.Proofs.CanonicalText.Legible

/-!
# Text that is encoded twice

Canonical text can be written for a transport that decodes it once: every string in it is encoded
twice.  Decoding such a text gives the canonical text that is encoded once, although decoding knows
nothing of strings and goes over names, signs and parentheses as well.

What a second encoding adds is little.  A text that is encoded once has letters, digits and percent
signs, and of these only the percent signs are encoded again.  So the one text is the other with
its percent signs encoded, part by part and hence as a whole, if nothing but strings brings them in.
Whether a comparison is written in infix form is decided by looking at the texts of its operands,
and encoding percent signs does not change what is seen there.

## Main definitions

* `Percent.escapePercents`: a text with its percent signs encoded
* `TextStyle.twice`: the style that encodes strings twice
* `Value.isEncoded`: no host value brings in a percent sign of its own

## Main results

* `Percent.decode?_escapePercents`: encoded percent signs are decoded
* `TextStyle.application_escapePercents`: the text of a term with its percent signs encoded
* `TextStyle.node_twice`, `TextStyle.query_twice`: what encoding twice does to a text
* `TextStyle.decode?_twice`: decoding a text that is encoded twice
-/

namespace ResourceQuery

namespace Percent

/-- A character, encoded if it is a percent sign. -/
def escapePercent (c : Char) : List Char := if c = '%' then encodeChar c else [c]

/-- A text with its percent signs encoded, and nothing else. -/
def escapePercents (s : String) : String := String.ofList (s.toList.flatMap escapePercent)

theorem toList_escapePercents (s : String) :
    (escapePercents s).toList = s.toList.flatMap escapePercent := by
  simp [escapePercents]

/-- **Encoded percent signs are decoded**, and nothing else is. -/
theorem decode?_escapePercents (s : String) : decode? (escapePercents s) = some s := by
  have hbytes : ∀ cs : List Char,
      decodeBytes (cs.flatMap escapePercent) = cs.flatMap String.utf8EncodeChar := by
    intro cs
    induction cs with
    | nil => rw [List.flatMap_nil, decodeBytes, List.flatMap_nil]
    | cons c cs ih =>
      rw [List.flatMap_cons, List.flatMap_cons, escapePercent, ← ih]
      split_ifs with hc
      · exact decodeBytes_encodeChar c _
      · exact decodeBytes_cons_of_ne hc _
  rw [decode?, toList_escapePercents, hbytes, fromUTF8?_flatMap]

/-- Percent signs are encoded side by side. -/
theorem escapePercents_append (a b : String) :
    escapePercents (a ++ b) = escapePercents a ++ escapePercents b := by
  simp [escapePercents]

/-- A text without percent signs stays as it is. -/
theorem escapePercents_of_notMem {s : String} (h : '%' ∉ s.toList) : escapePercents s = s := by
  have hsame : ∀ c ∈ s.toList, escapePercent c = [c] := by
    intro c hc
    rw [escapePercent, if_neg]
    rintro rfl
    exact h hc
  rw [escapePercents, List.flatMap_congr hsame, List.flatMap_singleton', String.ofList_toList]

/-- Texts with a separator between them are encoded one by one. -/
theorem escapePercents_intercalate {sep : String} (h : '%' ∉ sep.toList) (ss : List String) :
    escapePercents (String.intercalate sep ss) =
      String.intercalate sep (ss.map escapePercents) := by
  induction ss with
  | nil => rfl
  | cons s ss ih =>
    cases ss with
    | nil => simp
    | cons t ss =>
      rw [String.intercalate_cons_cons, escapePercents_append, escapePercents_append, ih,
        escapePercents_of_notMem h]
      exact (String.intercalate_cons_of_ne_nil (by simp)).symm

/-- A second encoding encodes the percent signs of the first. -/
theorem encode_encode (s : String) : encode (encode s) = escapePercents (encode s) := by
  have hsame : ∀ c ∈ (encode s).toList, encodeChar c = escapePercent c := by
    intro c hc
    have hencoded := isEncodedChar_of_mem_encode hc
    rw [escapePercent]
    split_ifs with hpercent
    · rfl
    · have hunreserved : isUnreserved c := by simpa [isEncodedChar, hpercent] using hencoded
      rw [encodeChar, if_pos hunreserved]
  rw [encode, List.flatMap_congr hsame, escapePercents]

theorem escapePercent_cases (c : Char) :
    (c = '%' ∧ escapePercent c = ['%', '2', '5']) ∨ escapePercent c = [c] := by
  unfold escapePercent
  split_ifs with hc
  · subst hc
    exact .inl ⟨rfl, by decide⟩
  · exact .inr rfl

theorem isEmpty_escapePercent (cs : List Char) :
    (cs.flatMap escapePercent).isEmpty = cs.isEmpty := by
  cases cs with
  | nil => rfl
  | cons c cs => rcases escapePercent_cases c with ⟨-, hc⟩ | hc <;> simp [hc]

theorem isEmpty_escapePercents (s : String) : (escapePercents s).isEmpty = s.isEmpty := by
  rw [Bool.eq_iff_iff, String.isEmpty_iff, String.isEmpty_iff, ← String.toList_eq_nil_iff,
    ← String.toList_eq_nil_iff, toList_escapePercents, ← List.isEmpty_iff, isEmpty_escapePercent,
    List.isEmpty_iff]

/-- Where percent signs and digits pass a test, encoding percent signs makes no difference to it. -/
theorem all_escapePercent (test : Char → Bool) (h : ['%', '2', '5'].all test) (cs : List Char) :
    (cs.flatMap escapePercent).all test = cs.all test := by
  rw [List.all_flatMap]
  congr 1
  funext c
  rcases escapePercent_cases c with ⟨rfl, hc⟩ | hc
  · rw [hc, h]
    exact (List.all_eq_true.mp h '%' List.mem_cons_self).symm
  · rw [hc, List.all_cons, List.all_nil, Bool.and_true]

end Percent

/-! ## Operands -/

namespace TextStyle

open Percent

/-- A flat list stays one: it is closed by its last character, which is not a percent sign. -/
theorem isFlatList_escapePercent (mayBeEmpty : Bool) (cs : List Char) :
    isFlatList mayBeEmpty (cs.flatMap escapePercent) = isFlatList mayBeEmpty cs := by
  cases cs with
  | nil => rfl
  | cons c rest =>
    rw [List.flatMap_cons]
    by_cases hc : c = '('
    · subst hc
      have hopening : escapePercent '(' = ['('] := by decide
      rw [hopening, List.singleton_append]
      unfold isFlatList
      rcases List.eq_nil_or_concat rest with rfl | ⟨items, d, rfl⟩
      · rfl
      · rw [List.concat_eq_append, List.flatMap_append, List.flatMap_singleton]
        rcases escapePercent_cases d with ⟨rfl, hd⟩ | hd
        · simp [hd]
        · have hall := all_escapePercent Text.isListChar (by decide) items
          simp [hd, hall, isEmpty_escapePercent]
    · have hrest : ∀ ds, isFlatList mayBeEmpty (c :: ds) = false := by
        intro ds
        unfold isFlatList
        split
        · next heq => exact absurd (List.cons.inj heq).1 hc
        · rfl
      rcases escapePercent_cases c with ⟨rfl, hd⟩ | hd
      · rw [hd, List.cons_append, hrest, hrest]
      · rw [hd, List.singleton_append, hrest, hrest]

/-- Encoding percent signs does not change whether a text can stand on the left of a sign. -/
theorem isLeftOperand_escapePercents (s : String) :
    isLeftOperand (escapePercents s) = isLeftOperand s := by
  have hall := all_escapePercent Text.isWordChar (by decide) s.toList
  unfold isLeftOperand
  rw [toList_escapePercents, isFlatList_escapePercent, hall, isEmpty_escapePercents]

/-- Encoding percent signs does not change whether a text can stand on the right of a sign. -/
theorem isRightOperand_escapePercents (s : String) :
    isRightOperand (escapePercents s) = isRightOperand s := by
  have hall := all_escapePercent Text.isWordChar (by decide) s.toList
  unfold isRightOperand
  rw [toList_escapePercents, isFlatList_escapePercent, hall]

/-! ## Terms -/

theorem parenthesized_escapePercents {sep : String} (h : '%' ∉ sep.toList)
    (items : List String) :
    parenthesized sep (items.map escapePercents) = escapePercents (parenthesized sep items) := by
  have hopening : escapePercents "(" = "(" := escapePercents_of_notMem (by decide)
  have hclosing : escapePercents ")" = ")" := escapePercents_of_notMem (by decide)
  unfold parenthesized
  rw [escapePercents_append, escapePercents_append, escapePercents_intercalate h, hopening,
    hclosing]

/-- A comparison of encoded operands is the encoded comparison. -/
theorem comparison_escapePercents {name symbol : String} (hname : '%' ∉ name.toList)
    (hsymbol : '%' ∉ symbol.toList) (left right : String) :
    comparison name symbol (escapePercents left) (escapePercents right) =
      escapePercents (comparison name symbol left right) := by
  unfold comparison
  rw [isLeftOperand_escapePercents, isRightOperand_escapePercents]
  split_ifs
  · rw [escapePercents_append, escapePercents_append, escapePercents_of_notMem hsymbol]
  · rw [escapePercents_append, escapePercents_of_notMem hname,
      ← parenthesized_escapePercents (by decide)]
    rfl

theorem percent_notMem_of_groupSign? {name sign : String} (h : groupSign? name = some sign) :
    '%' ∉ sign.toList := by
  unfold groupSign? at h
  split_ifs at h <;> cases h <;> decide

theorem percent_notMem_of_infixSign? {name sign : String} (h : infixSign? name = some sign) :
    '%' ∉ sign.toList := by
  obtain ⟨c, -, hsign⟩ := Option.bind_eq_some_iff.mp h
  cases c <;> cases hsign <;> decide

/-- **The text of a term with its percent signs encoded** is its text from the texts of its
arguments with theirs, unless its name has any. -/
theorem application_escapePercents {name : String} (hname : '%' ∉ name.toList)
    (args : List String) :
    application name (args.map escapePercents) = escapePercents (application name args) := by
  have hprefix : name ++ parenthesized "," (args.map escapePercents) =
      escapePercents (name ++ parenthesized "," args) := by
    rw [escapePercents_append, escapePercents_of_notMem hname,
      parenthesized_escapePercents (by decide)]
  unfold application
  rcases args with _ | ⟨a, _ | ⟨b, args⟩⟩
  · cases groupSign? name <;> cases infixSign? name <;> exact hprefix
  · cases groupSign? name <;> cases infixSign? name <;> exact hprefix
  · cases hsign : groupSign? name with
    | some sign =>
      exact parenthesized_escapePercents (percent_notMem_of_groupSign? hsign) (a :: b :: args)
    | none =>
      cases hinfix : infixSign? name with
      | none => exact hprefix
      | some symbol =>
        cases args with
        | nil =>
          exact comparison_escapePercents hname (percent_notMem_of_infixSign? hinfix) a b
        | cons c args => exact hprefix

end TextStyle

/-! ## Values -/

/-- The form brings no percent sign into a text but through the encoder. -/
def HostForm.isEncoded : HostForm → Bool
  | plain => true
  | tagged tag => !tag.toList.contains '%'
  | verbatim => false

namespace Value

mutual

/-- The host values in a value are written through the encoder.  Documents are encoded as a whole,
with everything in them. -/
def isEncoded : Value → Bool
  | .host h => h.form.isEncoded
  | .array items => areEncoded items
  | _ => true

/-- The host values in some values are written through the encoder. -/
def areEncoded : List Value → Bool
  | [] => true
  | v :: vs => isEncoded v && areEncoded vs

end

end Value

/-- A name without percent signs. -/
def isPercentFree (name : Option String) : Bool := name.all fun n => !n.toList.contains '%'

namespace TextStyle

open Percent

/-- The style that encodes strings twice. -/
def twice : TextStyle where
  encodeTwice := true

theorem encode_twice (s : String) :
    twice.encode s = escapePercents (({} : TextStyle).encode s) := encode_encode s

/-- A tag in front of encoded text. -/
theorem tagged_twice {tag : String} (h : '%' ∉ tag.toList) (s : String) :
    tag ++ twice.encode s = escapePercents (tag ++ ({} : TextStyle).encode s) := by
  rw [encode_twice, escapePercents_append, escapePercents_of_notMem h]

/-- **A string that is encoded twice** is the text of the string with its percent signs encoded. -/
theorem string_twice (s : String) :
    twice.string s = escapePercents (({} : TextStyle).string s) := by
  unfold string
  split_ifs
  · exact encode_twice s
  · exact tagged_twice (by decide) s

theorem pattern_twice (p : Pattern) :
    twice.pattern p = escapePercents (({} : TextStyle).pattern p) := by
  unfold pattern
  split_ifs
  · exact tagged_twice (by decide) p.source
  · exact tagged_twice (by decide) p.shown

/-- Encoding twice encodes the percent signs of a host value that is written through the encoder. -/
theorem host_twice {h : HostValue} (hform : h.form.isEncoded) :
    twice.host h = escapePercents (({} : TextStyle).host h) := by
  unfold host
  cases hcase : h.form with
  | plain => exact encode_twice h.text
  | tagged tag =>
    have htag : '%' ∉ tag.toList := by simpa [hcase, HostForm.isEncoded] using hform
    exact tagged_twice (by simp [htag]) h.text
  | verbatim => simp [hcase, HostForm.isEncoded] at hform

theorem percent_notMem_of_isDecimalChar {s : String} (h : ∀ c ∈ s.toList, Text.isDecimalChar c) :
    '%' ∉ s.toList := fun hmem => absurd (h '%' hmem) (by decide)

/-- A number has no percent signs. -/
theorem number_twice (n : Number) : n.canonical = escapePercents n.canonical := by
  refine (escapePercents_of_notMem ?_).symm
  rcases n.canonical_cases with hdecimal | hword
  · exact percent_notMem_of_isDecimalChar hdecimal
  · have hwords : ∀ text ∈ ["NaN", "Infinity", "-Infinity"], '%' ∉ text.toList := by decide
    exact hwords _ hword

mutual

/-- Encoding twice encodes the percent signs of a value, by its parts. -/
theorem value_twice : ∀ v : Value, v.isEncoded →
    twice.value v = escapePercents (({} : TextStyle).value v)
  | .undefined, _ => (escapePercents_of_notMem (by decide)).symm
  | .null, _ => (escapePercents_of_notMem (by decide)).symm
  | .bool b, _ => by cases b <;> exact (escapePercents_of_notMem (by decide)).symm
  | .number n, _ => number_twice n
  | .string s, _ => string_twice s
  | .date t, _ => by
    have hmillis := percent_notMem_of_isDecimalChar (Number.isDecimalChar_integerText t.millis)
    have htext : '%' ∉ ("epoch:" ++ integerText t.millis).toList := by
      rw [String.toList_append, List.mem_append, not_or]
      exact ⟨by decide, hmillis⟩
    exact (escapePercents_of_notMem htext).symm
  | .pattern p, _ => pattern_twice p
  | .array items, h => by
    rw [value, value, values_twice items h]
    exact parenthesized_escapePercents (by decide) _
  | .object fields, _ => encode_twice _
  | .host h, hform => host_twice hform

theorem values_twice : ∀ vs : List Value, Value.areEncoded vs →
    twice.values vs = (({} : TextStyle).values vs).map escapePercents
  | [], _ => rfl
  | v :: vs, h => by
    obtain ⟨hv, hvs⟩ := Bool.and_eq_true_iff.mp h
    rw [values, values, value_twice v hv, values_twice vs hvs, List.map_cons]

end

/-! ## Trees -/

/-- Encoding twice encodes the percent signs of nodes, if it does so of each of them. -/
theorem nodes_twice {ns : List Node}
    (h : ∀ n ∈ ns, twice.node n = escapePercents (({} : TextStyle).node n)) :
    twice.nodes ns = (({} : TextStyle).nodes ns).map escapePercents := by
  rw [nodes_eq_map, nodes_eq_map, List.map_map]
  exact List.map_congr_left h

/-- **Encoding the strings of a node twice** encodes the percent signs of its text. -/
theorem node_twice {n : Node} (h : n.all isPercentFree Value.isEncoded) :
    twice.node n = escapePercents (({} : TextStyle).node n) := by
  induction n with
  | term name args ih =>
    obtain ⟨hname, hargs⟩ := Node.all_term.mp h
    have hnodes := nodes_twice fun n hn => ih n hn (hargs n hn)
    cases name with
    | none =>
      rw [node, node, hnodes]
      exact parenthesized_escapePercents (by decide) _
    | some name =>
      have hpercent : '%' ∉ name.toList := by simpa [isPercentFree] using hname
      rw [node, node, hnodes]
      exact application_escapePercents hpercent _
  | list items ih =>
    have hitems := Node.all_list.mp h
    rw [node, node, nodes_twice fun n hn => ih n hn (hitems n hn)]
    exact parenthesized_escapePercents (by decide) _
  | value v => exact value_twice v (Node.all_value.mp h)

theorem disjunction_escapePercents (members : List String) :
    disjunction (members.map escapePercents) = escapePercents (disjunction members) := by
  have hsign : escapePercents "|" = "|" := escapePercents_of_notMem (by decide)
  unfold disjunction
  rw [List.length_map]
  split_ifs
  · rw [escapePercents_append, escapePercents_intercalate (by decide), hsign]
  · rw [escapePercents_intercalate (by decide)]

theorem parentheses_escapePercents (s : String) :
    "(" ++ escapePercents s ++ ")" = escapePercents ("(" ++ s ++ ")") := by
  have hsingle := parenthesized_escapePercents (show '%' ∉ "".toList by decide) [s]
  simpa only [parenthesized, List.map_singleton, String.intercalate_singleton] using hsingle

/-- Encoding twice encodes the percent signs of a root, whichever of its members are left out. -/
theorem root_twice {t : Term} (h : t.toNode.all isPercentFree Value.isEncoded) {members : List Node}
    (hmembers : members ⊆ t.args) (grouped : Bool) :
    twice.root t members grouped = escapePercents (({} : TextStyle).root t members grouped) := by
  have hargs : ∀ n ∈ t.args, twice.node n = escapePercents (({} : TextStyle).node n) :=
    fun n hn => node_twice ((Node.all_term.mp h).2 n hn)
  have hnodes := nodes_twice fun n hn => hargs n (hmembers hn)
  have hconjunction : String.intercalate "&" (twice.nodes members) =
      escapePercents (String.intercalate "&" (({} : TextStyle).nodes members)) := by
    rw [hnodes, escapePercents_intercalate (by decide)]
  have hdisjunction : disjunction (twice.nodes members) =
      escapePercents (disjunction (({} : TextStyle).nodes members)) := by
    rw [hnodes, disjunction_escapePercents]
  unfold root
  split_ifs with hand hor
  · -- One more conjunction is written around a single one, which is an argument and maybe no member.
    split
    · next name args hsingle =>
      split_ifs
      · have hinner := hargs (.term (some name) args) (by simp [hsingle])
        have htag : escapePercents "and(" = "and(" := escapePercents_of_notMem (by decide)
        have hclosing : escapePercents ")" = ")" := escapePercents_of_notMem (by decide)
        rw [hinner, escapePercents_append, escapePercents_append, htag, hclosing]
      · exact hconjunction
    · exact hconjunction
  · rw [hdisjunction, parentheses_escapePercents]
  · exact hdisjunction
  · exact node_twice h

/-! ## Queries -/

/-- A clause of encoded items is the encoded clause. -/
theorem clause?_escapePercents {name : String} (hname : '%' ∉ name.toList) (items : List String) :
    clause? name (items.map escapePercents) = (clause? name items).map escapePercents := by
  unfold clause?
  rw [List.isEmpty_map]
  split_ifs
  · rfl
  · rw [Option.map_some, escapePercents_append, escapePercents_of_notMem hname,
      parenthesized_escapePercents (by decide)]

theorem fields_twice (q : Query) (included : Bool) :
    twice.fields q included = (({} : TextStyle).fields q included).map escapePercents := by
  unfold fields
  rw [List.map_map]
  exact List.map_congr_left fun e _ => string_twice e.1

/-- The sign of a sort key is no percent sign, whatever its direction. -/
theorem sortKey_twice (key : String × SortOrder) :
    twice.sortKey key = escapePercents (({} : TextStyle).sortKey key) := by
  have hminus : escapePercents "-" = "-" := escapePercents_of_notMem (by decide)
  unfold sortKey
  split_ifs
  · rw [escapePercents_append, hminus, string_twice]
  · exact string_twice key.1

theorem paging_escapePercents (q : Query) : (paging q).map escapePercents = paging q := by
  have hinteger : ∀ n : Int, escapePercents (integerText n) = integerText n := fun n =>
    escapePercents_of_notMem (percent_notMem_of_isDecimalChar (Number.isDecimalChar_integerText n))
  unfold paging
  split_ifs <;> simp [hinteger]

/-- Encoding twice encodes the percent signs of the clauses of a query. -/
theorem clauses_twice (q : Query) :
    twice.clauses q = (({} : TextStyle).clauses q).map escapePercents := by
  have hsort : q.sort.map twice.sortKey =
      (q.sort.map ({} : TextStyle).sortKey).map escapePercents := by
    rw [List.map_map]
    exact List.map_congr_left fun key _ => sortKey_twice key
  have hlimit : (clause? "limit" (paging q)).map escapePercents = clause? "limit" (paging q) := by
    rw [← clause?_escapePercents (by decide), paging_escapePercents]
  unfold clauses
  rw [fields_twice, fields_twice, hsort, clause?_escapePercents (by decide),
    clause?_escapePercents (by decide), clause?_escapePercents (by decide)]
  -- Numbers have no percent signs, so the limit may be written with them encoded, on one side.
  nth_rewrite 1 [← hlimit]
  rw [List.map_filterMap]
  exact List.filterMap_map (f := Option.map escapePercents) (g := id)
    (l := [clause? "select" _, clause? "exclude" _, clause? "sort" _, clause? "limit" _])

/-- **Encoding the strings of a query twice** encodes the percent signs of its text. -/
theorem query_twice {q : Query} (h : q.selector.toNode.all isPercentFree Value.isEncoded) :
    twice.query q = escapePercents (({} : TextStyle).query q) := by
  have hmembers : (q.selector.args.filter fun n => !isClause n) ⊆ q.selector.args :=
    fun _ hn => List.mem_of_mem_filter hn
  have hroot := root_twice h hmembers
  unfold query
  dsimp only
  rw [clauses_twice, List.isEmpty_map, hroot, isEmpty_escapePercents,
    escapePercents_intercalate (by decide)]
  split_ifs
  · rfl
  · rw [List.map_append, List.map_singleton]

/-- **Decoding a text that is encoded twice gives the text that is encoded once**, for values, terms
and queries.  Names have to be free of percent signs, and host values written through the
encoder. -/
theorem decode?_twice :
    (∀ v : Value, v.isEncoded →
      Percent.decode? (twice.value v) = some (({} : TextStyle).value v)) ∧
    (∀ t : Term, t.toNode.all isPercentFree Value.isEncoded →
      Percent.decode? (twice.term t) = some (({} : TextStyle).term t)) ∧
    ∀ q : Query, q.selector.toNode.all isPercentFree Value.isEncoded →
      Percent.decode? (twice.query q) = some (({} : TextStyle).query q) := by
  refine ⟨fun v hv => ?_, fun t ht => ?_, fun q hq => ?_⟩
  · rw [value_twice v hv, decode?_escapePercents]
  · rw [term, root_twice ht (List.Subset.refl _), decode?_escapePercents]
    rfl
  · rw [query_twice hq, decode?_escapePercents]

/-- A list with a host value, a comparison that keeps its infix form, and a query with a sort
key. -/
theorem decode?_twice_comparison :
    Percent.decode? (twice.value (.array [.string "50%", .host ⟨"a b", .tagged "foo"⟩])) =
        some "(50%25,foo:a%20b)" ∧
      Percent.decode? (twice.term ⟨some "in", [.value (.string "a b"), .list []]⟩) =
        some "a%20b=in=()" ∧
      Percent.decode? (twice.query
          { selector := .and [.term (some "eq") [.value (.string "a"), .value (.string "50%")]]
            sort := [("b c", .descending)] }) = some "sort(-b%20c)&a=50%25" := by
  obtain ⟨hvalue, hterm, hquery⟩ := decode?_twice
  refine ⟨(hvalue _ (by decide)).trans (congrArg some ?_),
    (hterm _ (by decide)).trans (congrArg some ?_), (hquery _ (by decide)).trans (congrArg some ?_)⟩
  all_goals decide +kernel

end TextStyle

end ResourceQuery
