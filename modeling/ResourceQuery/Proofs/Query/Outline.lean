import ResourceQuery.Proofs.CanonicalText.Inert
import ResourceQuery.Proofs.CanonicalText.RoundTrip
import ResourceQuery.Proofs.Query.Clauses

/-!
# The outline of a query

The canonical text of a query has its clauses first and then what the selector says beyond them.  It
is the text of a tree, the outline of the query: terms for the clauses, with the words in them as
they stand, and the members of the selector that are no clauses.  So all that is known of the texts
of trees is known of it, and what it is read as is the outline with its values read again.

## Main definitions

* `Query.members`: the arguments of the selector that are no clauses
* `Query.written`: the clauses of the text, with their words
* `Query.outline`: the tree that the text writes out
* `Query.IsParsed`: what is true of every query of a text

## Main results

* `Query.isParsed_of_parseQuery`: queries of texts are parsed ones
* `Query.canonical_eq`: the text of a query from the texts of its outline
* `Query.IsParsed.parse_canonical_iff`: what the text of a query is read as
-/

namespace ResourceQuery

open Shorthand
open Text (AngleFree)

namespace Query

/-- The arguments of the selector that are no clauses. -/
def members (q : Query) : List Node := q.selector.args.filter fun n => !TextStyle.isClause n

/-- The clauses that a query is made of, with their words; there may be none in them. -/
def parts (q : Query) : List (String × List String) :=
  [("select", ({} : TextStyle).fields q true), ("exclude", ({} : TextStyle).fields q false),
    ("sort", q.sort.map ({} : TextStyle).sortKey), ("limit", TextStyle.paging q)]

/-- The clauses of the text of a query, with their words. -/
def written (q : Query) : List (String × List String) := q.parts.filter fun c => !c.2.isEmpty

end Query

/-- A word as it stands. -/
def Node.word (w : String) : Node := .value (.host ⟨w, .verbatim⟩)

/-- A clause with the words in it. -/
def Node.clause (c : String × List String) : Node := .term (some c.1) (c.2.map Node.word)

/-- The only argument of a term is a conjunction. -/
def Term.isNested (t : Term) : Bool :=
  match t.args with
  | [n] => n.isNamed andName
  | _ => false

namespace Query

/-- What the text of a query writes out of its selector.  One more conjunction is written around a
single one, so such a selector stands as it is. -/
def body (q : Query) : List Node :=
  if q.selector.isNamed andName then
    if q.selector.isNested then [q.selector.toNode] else q.members
  else [.term (some orName) q.members]

/-- The tree that the text of a query writes out. -/
def outline (q : Query) : Term :=
  if q.selector.isNamed andName || !q.written.isEmpty then
    Term.and (q.written.map Node.clause ++ q.body)
  else ⟨some orName, q.members⟩

end Query

/-! ## The text of an outline -/

theorem nodes_map_word (ws : List String) : ({} : TextStyle).nodes (ws.map Node.word) = ws := by
  rw [nodes_eq_map, List.map_map]
  exact List.map_id ws

/-- A clause is written in prefix form, since its name has no sign. -/
theorem node_clause {c : String × List String} (hc : c.1 ∈ Dialect.queryClauses) :
    ({} : TextStyle).node (Node.clause c) = c.1 ++ TextStyle.parenthesized "," c.2 := by
  have hplain : TextStyle.groupSign? c.1 = none ∧ TextStyle.infixSign? c.1 = none := by
    simp only [Dialect.queryClauses, List.mem_cons, List.not_mem_nil, or_false] at hc
    rcases hc with hc | hc | hc | hc <;> rw [hc] <;> decide
  rw [Node.clause, TextStyle.node, nodes_map_word]
  unfold TextStyle.application
  rw [hplain.1, hplain.2]

namespace Query

theorem mem_written {q : Query} {c : String × List String} (h : c ∈ q.written) :
    c.1 ∈ Dialect.queryClauses ∧ c.2 ≠ [] := by
  obtain ⟨hc, hne⟩ := List.mem_filter.mp h
  refine ⟨?_, by simpa using hne⟩
  simp only [parts, List.mem_cons, List.not_mem_nil, or_false] at hc
  rcases hc with rfl | rfl | rfl | rfl <;> simp [Dialect.queryClauses]

/-- The clauses of the text are the texts of the terms for them.  Those without words are left out
of both. -/
theorem clauses_eq_nodes (q : Query) :
    ({} : TextStyle).clauses q = ({} : TextStyle).nodes (q.written.map Node.clause) := by
  have hwritten : ({} : TextStyle).nodes (q.written.map Node.clause) =
      q.written.map fun c => c.1 ++ TextStyle.parenthesized "," c.2 := by
    rw [nodes_eq_map, List.map_map]
    exact List.map_congr_left fun c hc => node_clause (mem_written hc).1
  have hfilter : ∀ cs : List (String × List String),
      (cs.map fun c => TextStyle.clause? c.1 c.2).filterMap id =
        (cs.filter fun c => !c.2.isEmpty).map fun c =>
          c.1 ++ TextStyle.parenthesized "," c.2 := by
    intro cs
    induction cs with
    | nil => rfl
    | cons c cs ih =>
      rw [List.map_cons, List.filterMap_cons, List.filter_cons, ih]
      by_cases hc : c.2.isEmpty <;> simp [TextStyle.clause?, hc]
  rw [hwritten]
  exact hfilter q.parts

end Query

/-- The only argument of a nested term is an `and` term, whatever its arguments are. -/
theorem Term.isNested_iff {t : Term} :
    t.isNested ↔ ∃ inner, t.args = [.term (some andName) inner] := by
  unfold isNested
  split
  · next n hargs =>
    rw [hargs]
    cases n with
    | term name inner => simp [Node.isNamed]
    | list => simp [Node.isNamed]
    | value => simp [Node.isNamed]
  · next hargs =>
    refine iff_of_false (by simp) ?_
    rintro ⟨inner, hinner⟩
    exact hargs _ hinner

section Root

variable {t : Term} (hand : t.isNamed andName) (ms : List Node) (grouped : Bool)

include hand

/-- A conjunction of a single conjunction is written in prefix form, with all its arguments. -/
theorem root_of_isNested (hnested : t.isNested) :
    ({} : TextStyle).root t ms grouped = ({} : TextStyle).node t.toNode := by
  obtain ⟨inner, hargs⟩ := Term.isNested_iff.mp hnested
  obtain ⟨name, args⟩ := t
  obtain rfl : args = _ := hargs
  obtain rfl : name = some andName := Term.name_of_isNamed hand
  rw [← String.toList_inj]
  simp [TextStyle.root, Term.isNamed, Term.toNode, TextStyle.node, TextStyle.nodes,
    TextStyle.application, TextStyle.groupSign?, TextStyle.infixSign?, Comparison.ofName?,
    TextStyle.parenthesized, andName]

/-- Any other conjunction is written as the texts that are given for its members. -/
theorem root_of_not_isNested (hnested : ¬ t.isNested) :
    ({} : TextStyle).root t ms grouped =
      String.intercalate "&" (({} : TextStyle).nodes ms) := by
  rw [TextStyle.root, if_pos hand]
  split
  · next name inner hargs =>
    rw [if_neg]
    rintro rfl
    exact hnested (Term.isNested_iff.mpr ⟨inner, hargs⟩)
  · rfl

end Root

theorem disjunction_ne_empty (texts : List String) : TextStyle.disjunction texts ≠ "" := by
  intro h
  have hlist := congrArg String.toList h
  unfold TextStyle.disjunction at hlist
  split_ifs at hlist with hlength
  · simp at hlist
  · match texts with
    | [] => simp at hlength
    | [_] => simp at hlength
    | a :: b :: texts => simp [String.toList_intercalate] at hlist

theorem application_ne_empty (name : String) (texts : List String) :
    TextStyle.application name texts ≠ "" := by
  intro h
  have hlist := congrArg String.toList h
  unfold TextStyle.application at hlist
  split at hlist
  · simp [toList_parenthesized] at hlist
  · split at hlist
    · next symbol left right hsymbol _ =>
      obtain ⟨c, -, hsign⟩ := Option.bind_eq_some_iff.mp hsymbol
      have hne : symbol ≠ "" := by cases c <;> cases hsign <;> decide
      unfold TextStyle.comparison at hlist
      split_ifs at hlist
      · simp [hne] at hlist
      · simp [toList_parenthesized] at hlist
    · simp [toList_parenthesized] at hlist

/-- No tree with readable values has an empty text. -/
theorem node_ne_empty {n : Node} (h : n.all Parser.isTermName Value.isWord) :
    ({} : TextStyle).node n ≠ "" := by
  cases n with
  | term name args =>
    cases name with
    | none => cases (Node.all_term.mp h).1
    | some name => exact application_ne_empty name _
  | list items =>
    intro hempty
    have hlist := congrArg String.toList hempty
    simp [TextStyle.node, toList_parenthesized] at hlist
  | value v => exact (Text.isWord_iff.mp (Node.all_value.mp h)).1

/-- A joined text at the end of a list is joined with what is in front of it. -/
theorem intercalate_append_intercalate (sep : String) (as : List String) {bs : List String}
    (h : bs ≠ []) : String.intercalate sep (as ++ [String.intercalate sep bs]) =
      String.intercalate sep (as ++ bs) := by
  rw [← String.toList_inj, String.toList_intercalate, String.toList_intercalate, List.map_append,
    List.map_append, List.map_singleton, String.toList_intercalate]
  obtain ⟨b, bs, rfl⟩ := List.exists_cons_of_ne_nil h
  induction as with
  | nil => simp
  | cons a as ih =>
    cases as with
    | nil => simp [List.intercalate_cons_cons]
    | cons c as =>
      simp only [List.map_cons, List.cons_append, List.intercalate_cons_cons] at ih ⊢
      rw [ih]

/-- Without empty texts only the empty list is joined to an empty text. -/
theorem intercalate_eq_empty_iff {sep : String} {texts : List String}
    (h : ∀ text ∈ texts, text ≠ "") : String.intercalate sep texts = "" ↔ texts = [] := by
  refine ⟨fun hempty => ?_, by rintro rfl; rfl⟩
  have hlist := congrArg String.toList hempty
  match texts with
  | [] => rfl
  | [text] => exact absurd hempty (by simpa using h text)
  | a :: b :: texts =>
    have ha : a ≠ "" := h a (by simp)
    simp [String.toList_intercalate, ha] at hlist

namespace Query

/-- The texts of what is written out of the selector. -/
def bodyTexts (q : Query) : List String :=
  if q.selector.isNamed andName then ({} : TextStyle).nodes q.body
  else ["(" ++ TextStyle.disjunction (({} : TextStyle).nodes q.members) ++ ")"]

variable {q : Query}

/-- A conjunction is the text of what is written out of it. -/
theorem root_of_isNamed (hand : q.selector.isNamed andName) (grouped : Bool) :
    ({} : TextStyle).root q.selector q.members grouped = String.intercalate "&" q.bodyTexts := by
  rw [bodyTexts, if_pos hand, body, if_pos hand]
  split_ifs with hnested
  · rw [root_of_isNested hand q.members grouped hnested]
    exact (String.intercalate_singleton).symm
  · exact root_of_not_isNested hand q.members grouped hnested

/-- Nothing that is written out of a conjunction is empty, so the text that is left out is that of
no members. -/
theorem bodyTexts_ne_empty (hand : q.selector.isNamed andName)
    (hmembers : ∀ n ∈ q.members, n.all Parser.isTermName Value.isWord) :
    ∀ text ∈ q.bodyTexts, text ≠ "" := by
  rw [bodyTexts, if_pos hand, body, if_pos hand, nodes_eq_map]
  intro text htext
  obtain ⟨n, hn, rfl⟩ := List.mem_map.mp htext
  split_ifs at hn with hnested
  · obtain rfl := List.mem_singleton.mp hn
    rw [Term.toNode, Term.name_of_isNamed hand]
    exact application_ne_empty andName _
  · exact node_ne_empty (hmembers n hn)

/-- **The text of a query** from the texts of its outline. -/
theorem canonical_eq (hroot : q.selector.isNamed andName ∨ q.selector.isNamed orName)
    (hmembers : ∀ n ∈ q.members, n.all Parser.isTermName Value.isWord) :
    q.canonical = if q.selector.isNamed andName || !q.written.isEmpty then
        String.intercalate "&" (({} : TextStyle).nodes (q.written.map Node.clause) ++ q.bodyTexts)
      else TextStyle.disjunction (({} : TextStyle).nodes q.members) := by
  have hclauses : (({} : TextStyle).clauses q).isEmpty = q.written.isEmpty := by
    rw [clauses_eq_nodes, nodes_eq_map]
    simp
  have hquery : q.canonical = String.intercalate "&"
      (if (({} : TextStyle).root q.selector q.members !q.written.isEmpty).isEmpty
        then ({} : TextStyle).clauses q
        else ({} : TextStyle).clauses q ++
          [({} : TextStyle).root q.selector q.members !q.written.isEmpty]) := by
    rw [← hclauses]
    rfl
  rw [hquery, ← clauses_eq_nodes]
  clear hquery
  by_cases hand : q.selector.isNamed andName
  · -- The members of a conjunction follow the clauses with the same sign between them.
    have htexts := bodyTexts_ne_empty hand hmembers
    rw [root_of_isNamed hand]
    simp only [hand, Bool.true_or, if_true, String.isEmpty_iff, intercalate_eq_empty_iff htexts]
    split_ifs with hbody
    · rw [hbody, List.append_nil]
    · exact intercalate_append_intercalate "&" _ hbody
  · -- A disjunction is one member more, in parentheses unless it stands alone.
    have hor : q.selector.isNamed orName := hroot.resolve_left hand
    have hroot : ({} : TextStyle).root q.selector q.members (!q.written.isEmpty) =
        if q.written.isEmpty then TextStyle.disjunction (({} : TextStyle).nodes q.members)
        else "(" ++ TextStyle.disjunction (({} : TextStyle).nodes q.members) ++ ")" := by
      rw [TextStyle.root, if_neg hand, if_pos hor]
      cases q.written.isEmpty <;> rfl
    rw [hroot, bodyTexts, if_neg hand]
    by_cases hwritten : q.written.isEmpty
    · have hnil : ({} : TextStyle).clauses q = [] := by
        rwa [← List.isEmpty_iff, hclauses]
      have hne := disjunction_ne_empty (({} : TextStyle).nodes q.members)
      simp [hand, hwritten, hnil, hne]
    · simp [hand, hwritten]

end Query

/-! ## Queries of texts -/

theorem Number.isDecimalChar_of_plain? {n : Number} {k : String} (h : n.plain? = some k) :
    ∀ c ∈ k.toList, Text.isDecimalChar c := by
  cases n with
  | int i =>
    cases h
    exact isDecimalChar_integerText i.toInt
  | float x =>
    simp only [plain?, Option.ite_none_right_eq_some, Option.some.injEq] at h
    obtain ⟨hfinite, rfl⟩ := h
    obtain ⟨p, hp, htext, -⟩ := NumberLayout.exists_parts_render plainLayout x
    rw [floatText_of_isFinite plainLayout hfinite, String.toList_ofList, ← htext]
    exact Literal.isDecimalChar_text hp

theorem Value.angleFree_of_pathSegment? {v : Value} (hv : v.AngleFree) {k : String}
    (h : v.pathSegment? = some k) : Text.AngleFree k.toList := by
  cases v with
  | string s =>
    cases h
    exact hv
  | number n =>
    exact Text.angleFree_of_isWordChar fun c hc =>
      Registry.isWordChar_of_isDecimalChar (Number.isDecimalChar_of_plain? h c hc)
  | _ => cases h

theorem angleFree_intercalate_dot {texts : List String}
    (h : ∀ text ∈ texts, AngleFree text.toList) :
    AngleFree (String.intercalate "." texts).toList := by
  rw [String.toList_intercalate]
  induction texts with
  | nil => simp [AngleFree]
  | cons text texts ih =>
    obtain ⟨htext, htexts⟩ := List.forall_mem_cons.mp h
    cases texts with
    | nil => simpa using htext
    | cons _ _ =>
      intro c hc hmem
      rw [List.map_cons, List.map_cons, List.intercalate_cons_cons, List.mem_append,
        List.mem_append] at hmem
      rcases hmem with (hmem | hmem) | hmem
      · exact htext c hc hmem
      · rcases List.mem_pair.mp hc with rfl | rfl <;> simp at hmem
      · exact ih htexts c hc hmem

theorem exists_of_mem_mapM {α β : Type} {f : α → Option β} {as : List α} {bs : List β}
    (h : as.mapM f = some bs) : ∀ b ∈ bs, ∃ a ∈ as, f a = some b := by
  induction as generalizing bs with
  | nil =>
    cases h
    simp
  | cons a as ih =>
    simp only [List.mapM_cons, bind, Option.bind_eq_some_iff, pure, Option.some.injEq] at h
    obtain ⟨b, hb, cs, hcs, rfl⟩ := h
    refine List.forall_mem_cons.mpr ⟨⟨a, List.mem_cons_self, hb⟩, fun c hc => ?_⟩
    obtain ⟨d, hd, hfd⟩ := ih hcs c hc
    exact ⟨d, List.mem_cons_of_mem a hd, hfd⟩

/-- A path has no angle brackets if the values in it have none. -/
theorem Node.angleFree_of_path? {n : Node} (hn : ∀ v ∈ n.leaves, v.AngleFree) {k : String}
    (h : n.path? = some k) : AngleFree k.toList := by
  cases n with
  | term => cases h
  | value v => exact Value.angleFree_of_pathSegment? (hn v (by simp)) h
  | list items =>
    simp only [path?, Option.ite_none_left_eq_some, Option.map_eq_some_iff] at h
    obtain ⟨-, segments, hsegments, rfl⟩ := h
    refine angleFree_intercalate_dot fun text htext => ?_
    obtain ⟨m, hm, hsegment⟩ := exists_of_mem_mapM hsegments text htext
    cases m with
    | value v =>
      exact Value.angleFree_of_pathSegment?
        (hn v (by simpa using ⟨Node.value v, hm, by simp⟩)) hsegment
    | _ => cases hsegment

/-- The values of the arguments of a term in a tree are values of the tree. -/
theorem Node.leaves_subset_of_mem_terms {n : Node} {c : Clause} (h : c ∈ n.terms) :
    c.args.flatMap leaves ⊆ n.leaves := by
  have hmembers : ∀ ns : List Node,
      (∀ m ∈ ns, c ∈ m.terms → c.args.flatMap leaves ⊆ m.leaves) →
      c ∈ termsIn ns → c.args.flatMap leaves ⊆ ns.flatMap leaves := by
    intro ns hns hc
    induction ns with
    | nil => cases hc
    | cons m ns ih =>
      obtain ⟨hm, hns⟩ := List.forall_mem_cons.mp hns
      rw [List.flatMap_cons]
      rcases List.mem_append.mp hc with hc | hc
      · exact List.subset_append_of_subset_left _ (hm hc)
      · exact List.subset_append_of_subset_right _ (ih hns hc)
  induction n with
  | term name args ih =>
    rw [leaves_term]
    cases name with
    | none => exact hmembers args ih h
    | some name =>
      rcases List.mem_cons.mp h with rfl | h
      · exact List.Subset.refl _
      · exact hmembers args ih h
  | list items ih =>
    rw [leaves_list]
    exact hmembers items ih h
  | value v => cases h

namespace Query

/-- What is true of every query of a text. -/
structure IsParsed (q : Query) : Prop where
  shaped : q.selector.toNode.all Parser.isTermName Value.isReadable
  root : q.selector.isNamed andName ∨ q.selector.isNamed orName
  angleFree : ∀ v ∈ q.selector.toNode.leaves, v.AngleFree
  keys : q.AllKeys fun k => AngleFree k.toList
  consistent : q.Consistent

/-- A sort key has no characters but those of its word. -/
theorem sortKey_subset (k : String) : (sortKey k).1.toList ⊆ k.toList := by
  unfold sortKey
  split
  · next heq => simp [heq]
  · next heq => simp [heq]
  · exact List.Subset.refl _

/-- The query of a text is that of its tree, if it has one. -/
theorem parseQuery_eq_ok_iff {text : String} {q : Query} :
    parseQuery text = .ok q ↔
      ∃ t, Parser.queries.parse text = .ok t ∧
        q = ofClauses t (t.lastClauses Dialect.queryClauses) := by
  have hquery : parseQuery text = (Parser.queries.parse text).map fun t =>
      ofClauses t (t.lastClauses Dialect.queryClauses) :=
    @Parser.parseQuery_eq_map_parse Parser.queries (by decide) (by decide) text
  rw [hquery]
  cases Parser.queries.parse text with
  | ok t => simp [Except.map, eq_comm]
  | error e => simp [Except.map]

theorem isParsed_of_parseQuery {text : String} {q : Query} (h : parseQuery text = .ok q) :
    q.IsParsed := by
  obtain ⟨t, hparse, rfl⟩ := parseQuery_eq_ok_iff.mp h
  obtain ⟨hshaped, hroot⟩ := Parser.shaped_of_parse (Parser.gives_isReadable rfl rfl) hparse
  have hfree := Parser.angleFree_of_parse hparse
  refine ⟨by simpa using hshaped, by simpa using hroot, by simpa using hfree, ?_,
    consistent_ofClauses _ _⟩
  refine allKeys_ofClauses (fun k hk => hk.mono (sortKey_subset k)) (fun c hc k hk => ?_) t
  obtain ⟨n, hn, hpath⟩ := List.mem_filterMap.mp hk
  have hmem : c ∈ t.toNode.terms := by
    have hterm := (List.mem_filter.mp (mem_of_mem_latestBy hc)).1
    simpa [Node.termsIn] using hterm
  exact Node.angleFree_of_path? (fun v hv =>
    hfree v (Node.leaves_subset_of_mem_terms hmem (List.mem_flatMap_of_mem hn hv))) hpath

/-! ## Reading the text of a query -/

/-- What can be a word of a clause. -/
theorem word_cases {P : String → Prop} {q : Query} (hq : q.AllKeys P)
    {c : String × List String} (hc : c ∈ q.parts) {w : String} (hw : w ∈ c.2) :
    (∃ k, P k ∧ w = ({} : TextStyle).string k) ∨
      (∃ e ∈ q.sort, P e.1 ∧ e.2 < 0 ∧ w = "-" ++ ({} : TextStyle).string e.1) ∨
      ∃ n, w = integerText n := by
  simp only [parts, List.mem_cons, List.not_mem_nil, or_false] at hc
  rcases hc with rfl | rfl | rfl | rfl
  · obtain ⟨e, he, rfl⟩ := List.mem_map.mp hw
    exact .inl ⟨e.1, hq.fields e (List.mem_filter.mp he).1, rfl⟩
  · obtain ⟨e, he, rfl⟩ := List.mem_map.mp hw
    exact .inl ⟨e.1, hq.fields e (List.mem_filter.mp he).1, rfl⟩
  · obtain ⟨e, he, rfl⟩ := List.mem_map.mp hw
    unfold TextStyle.sortKey
    split_ifs with horder
    · exact .inr (.inl ⟨e, he, hq.sort e he, horder, rfl⟩)
    · exact .inl ⟨e.1, hq.sort e he, rfl⟩
  · refine .inr (.inr ?_)
    change w ∈ TextStyle.paging q at hw
    unfold TextStyle.paging at hw
    split_ifs at hw
    · cases hw
    · exact ⟨_, List.mem_singleton.mp hw⟩
    · rcases List.mem_pair.mp hw with rfl | rfl <;> exact ⟨_, rfl⟩

theorem isWord_integerText (n : Int) : Text.isWord (integerText n) := by
  refine Text.isWord_iff.mpr ⟨?_, fun c hc =>
    Registry.isWordChar_of_isDecimalChar (Number.isDecimalChar_integerText n c hc)⟩
  rw [Ne, ← String.toList_eq_nil_iff, integerText]
  split_ifs <;> simp [Nat.toDigits_ne_nil]

variable {q : Query}

/-- The words of clauses are words of the grammar. -/
theorem isWord_of_mem_parts {c : String × List String} (hc : c ∈ q.parts) {w : String}
    (hw : w ∈ c.2) : Text.isWord w := by
  have hall : q.AllKeys fun _ => True := ⟨fun _ _ => trivial, fun _ _ => trivial⟩
  rcases word_cases hall hc hw with ⟨k, -, rfl⟩ | ⟨⟨k, _⟩, -, -, -, rfl⟩ | ⟨n, rfl⟩
  · exact TextStyle.isWord_string k
  · refine Text.isWord_iff.mpr ⟨fun hempty => ?_, fun c hc => ?_⟩
    · simpa using congrArg String.toList hempty
    · rw [String.toList_append] at hc
      rcases List.mem_append.mp hc with hc | hc
      · obtain rfl := List.mem_singleton.mp hc
        decide
      · exact (Text.isWord_iff.mp (TextStyle.isWord_string k)).2 c hc
  · exact isWord_integerText n

/-- No rule rewrites the words of clauses, if their keys have no angle brackets. -/
theorem inert_of_mem_parts (hkeys : q.AllKeys fun k => AngleFree k.toList)
    {c : String × List String} (hc : c ∈ q.parts) {w : String} (hw : w ∈ c.2) :
    Inert w.toList := by
  rcases word_cases hkeys hc hw with ⟨k, hk, rfl⟩ | ⟨⟨k, _⟩, -, hk, -, rfl⟩ | ⟨n, rfl⟩
  · exact Value.inert_string hk
  · rw [String.toList_append]
    exact (inert_cons_iff (by decide) (by decide)).mpr (Value.inert_string hk)
  · exact inert_of_isDecimalChar (Number.isDecimalChar_integerText n)

theorem all_isWord {n : Node} (h : n.all Parser.isTermName Value.isReadable) :
    n.all Parser.isTermName Value.isWord :=
  Node.all_mono h fun _ hv => Value.isWord_of_isReadable (Node.of_mem_leaves h hv)

/-- There are no encoded comparison signs in the names of the selector. -/
def HasPlainNames (q : Query) : Prop :=
  ∀ name ∈ q.selector.toNode.names, ¬ HasEncodedSign name.toList

/-- Names without percent signs are plain. -/
theorem hasPlainNames_of_all
    (h : q.selector.toNode.names.all fun name => !name.toList.contains '%') : q.HasPlainNames :=
  fun name hname => not_hasEncodedSign_of_notMem (by simpa using List.all_eq_true.mp h name hname)

theorem all_clause {c : String × List String} (hc : c ∈ q.written) :
    (Node.clause c).all Parser.isTermName Value.isWord := by
  have hname : ∀ name ∈ Dialect.queryClauses, Parser.isTermName (some name) := by decide
  rw [Node.clause, Node.all_term]
  refine ⟨hname c.1 (mem_written hc).1, fun n hn => ?_⟩
  obtain ⟨w, hw, rfl⟩ := List.mem_map.mp hn
  exact isWord_of_mem_parts (List.mem_filter.mp hc).1 hw

namespace IsParsed

variable (h : q.IsParsed)

include h

/-- The members of the selector have names of terms and readable values. -/
theorem all_members : ∀ n ∈ q.members, n.all Parser.isTermName Value.isReadable := fun n hn =>
  (Node.all_term.mp h.shaped).2 n (List.mem_filter.mp hn).1

/-- What is written out of the selector has names of terms and readable values. -/
theorem all_body : ∀ n ∈ q.body, n.all Parser.isTermName Value.isReadable := by
  have hor : Parser.isTermName (some orName) := by decide
  unfold body
  split_ifs
  · simpa using h.shaped
  · exact h.all_members
  · simpa [hor] using h.all_members

theorem forall₂_legible_members :
    List.Forall₂ Legible (({} : TextStyle).nodes q.members) q.members :=
  forall₂_legible_nodes fun n hn => legible_node (all_isWord (h.all_members n hn))

/-- The texts that the text of a query is made of are legible. -/
theorem forall₂_legible : List.Forall₂ Legible
    (({} : TextStyle).nodes (q.written.map Node.clause) ++ q.bodyTexts)
    (q.written.map Node.clause ++ q.body) := by
  refine List.rel_append ?_ ?_
  · refine forall₂_legible_nodes fun n hn => ?_
    obtain ⟨c, hc, rfl⟩ := List.mem_map.mp hn
    exact legible_node (all_clause hc)
  · unfold bodyTexts
    split_ifs with hand
    · exact forall₂_legible_nodes fun n hn => legible_node (all_isWord (h.all_body n hn))
    · rw [body, if_neg hand]
      exact .cons (legible_disjunction h.forall₂_legible_members) .nil

/-- A tree with the names and values of the selector has inert text. -/
theorem inert_of_subset (hplain : q.HasPlainNames) {n : Node}
    (hnames : n.names ⊆ q.selector.toNode.names) (hleaves : n.leaves ⊆ q.selector.toNode.leaves) :
    Inert (({} : TextStyle).node n).toList := by
  refine inert_node (fun name hname => ⟨hplain name (hnames hname), fun hslash => ?_⟩)
    fun v hv => Value.inert_canonical (Node.of_mem_leaves h.shaped (hleaves hv))
      (h.angleFree v (hleaves hv))
  have hword := (Text.isWord_iff.mp (Node.of_mem_names h.shaped (hnames hname))).2
  exact absurd (hword '/' hslash) (by decide)

theorem inert_members (hplain : q.HasPlainNames) :
    ∀ text ∈ ({} : TextStyle).nodes q.members, Inert text.toList := by
  intro text htext
  rw [nodes_eq_map] at htext
  obtain ⟨n, hn, rfl⟩ := List.mem_map.mp htext
  have hargs : n ∈ q.selector.args := (List.mem_filter.mp hn).1
  refine h.inert_of_subset hplain (fun name hname => ?_) fun v hv => ?_
  · rw [Term.toNode, Node.names_term]
    exact List.mem_append_right _ (List.mem_flatMap_of_mem hargs hname)
  · rw [Term.toNode, Node.leaves_term]
    exact List.mem_flatMap_of_mem hargs hv

theorem inert_bodyTexts (hplain : q.HasPlainNames) : ∀ text ∈ q.bodyTexts, Inert text.toList := by
  unfold bodyTexts body
  split_ifs
  · intro text htext
    obtain rfl := List.mem_singleton.mp htext
    exact h.inert_of_subset hplain (List.Subset.refl _) (List.Subset.refl _)
  · exact h.inert_members hplain
  · intro text htext
    obtain rfl := List.mem_singleton.mp htext
    rw [String.toList_append, String.toList_append]
    refine (inert_concat_iff (by decide) (by decide)).mpr ?_
    exact (inert_cons_iff (by decide) (by decide)).mpr (inert_disjunction (h.inert_members hplain))

theorem inert_clauses : ∀ text ∈ ({} : TextStyle).nodes (q.written.map Node.clause),
    Inert text.toList := by
  intro text htext
  rw [nodes_eq_map, List.map_map] at htext
  obtain ⟨c, hc, rfl⟩ := List.mem_map.mp htext
  have hname : ∀ name ∈ Dialect.queryClauses, '%' ∉ name.toList ∧ '/' ∉ name.toList := by decide
  obtain ⟨hpercent, hslash⟩ := hname c.1 (mem_written hc).1
  rw [Function.comp, node_clause (mem_written hc).1]
  exact inert_prefix (inert_of_notMem hpercent hslash) fun w hw =>
    inert_of_mem_parts h.keys (List.mem_filter.mp hc).1 hw

theorem canonical_eq : q.canonical =
    if q.selector.isNamed andName || !q.written.isEmpty then
      String.intercalate "&" (({} : TextStyle).nodes (q.written.map Node.clause) ++ q.bodyTexts)
    else TextStyle.disjunction (({} : TextStyle).nodes q.members) :=
  Query.canonical_eq h.root fun n hn => all_isWord (h.all_members n hn)

/-- **The text of a query is inert**, if the names in it are plain. -/
theorem inert_canonical (hplain : q.HasPlainNames) : Inert q.canonical.toList := by
  rw [h.canonical_eq]
  split_ifs
  · refine isSeparator_ampersand.inert fun text htext => ?_
    exact (List.mem_append.mp htext).elim (h.inert_clauses text) (h.inert_bodyTexts hplain text)
  · exact inert_disjunction (h.inert_members hplain)

/-- **What the text of a query is read as**: its outline, with its values read again. -/
theorem parse_canonical_iff (hplain : q.HasPlainNames) {t : Term} :
    Parser.queries.parse q.canonical = .ok t ↔
      (∀ v ∈ q.outline.toNode.leaves, Parser.queries.Converts v.canonical) ∧
        t = Parser.rootTerm q.outline.name
          (q.outline.args.map (Node.mapValues Value.reread)) := by
  have hstandard : Parser.queries.IsStandard := ⟨rfl, rfl⟩
  have htext := (h.inert_canonical hplain).expandsInfix (p := Parser.queries) rfl
  rw [h.canonical_eq] at htext ⊢
  unfold outline
  split_ifs at htext ⊢
  · rw [parse_conjunction_iff hstandard h.forall₂_legible htext, Term.toNode, Node.leaves_term]
    rfl
  · rw [parse_disjunction_iff hstandard h.forall₂_legible_members htext, Term.toNode,
      Node.leaves_term, Parser.rootTerm_orName]

end IsParsed

end Query

end ResourceQuery
