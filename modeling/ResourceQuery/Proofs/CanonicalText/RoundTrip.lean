import ResourceQuery.Proofs.CanonicalText.Legible
import ResourceQuery.Proofs.Converter.ReadBack

/-!
# Canonical text is read back

A tree that was parsed is parsed again from its canonical text.  The text is legible, and the
converters read the canonical texts of its values as equal values, so the tree that is built is an
equal one.

## Main definitions

* `Value.reread`: what the canonical text of a value is read as
* `ReadsBack`: a text is read as a node, with equal values

## Main results

* `Value.eqv_reread`: the values of a parsed tree are read back as equal ones
* `readsBack_node`: the canonical text of a node
* `parse_canonical`: the canonical text of a parsed tree denotes an equal tree
-/

namespace ResourceQuery

open Shorthand (Expands)
open Token (Spells)

variable {p : Parser}

/-! ## Values -/

/-- What the built-in converters read the canonical text of a value as. -/
def Value.reread (v : Value) : Value :=
  match Registry.builtin.convert "auto" v.canonical with
  | .ok u => u
  | .error _ => v

/-- The parser reads words with the built-in converters. -/
structure Parser.IsStandard (p : Parser) : Prop where
  registry : p.registry = .builtin
  defaultConverter : p.dialect.defaultConverter = "auto"

theorem isStandard_default : ({} : Parser).IsStandard := ⟨rfl, rfl⟩

/-- What the text of a value is converted to is the value read again. -/
theorem Value.reread_of_convert {v u : Value}
    (h : Registry.builtin.convert "auto" v.canonical = .ok u) : v.reread = u := by
  simp [reread, h]

theorem Parser.IsStandard.converts (hp : p.IsStandard) {w : String} {u : Value}
    (h : Registry.builtin.convert "auto" w = .ok u) : p.Converts w :=
  ⟨u, by rw [hp.registry, hp.defaultConverter, h]⟩

/-- Words that are converted at all are converted to what they are reread as. -/
theorem Parser.IsStandard.convert_canonical (hp : p.IsStandard) {v : Value}
    (h : p.Converts v.canonical) : p.convert v.canonical = .ok (.value v.reread) := by
  obtain ⟨u, hu⟩ := h
  rw [hp.registry, hp.defaultConverter] at hu
  rw [Parser.convert, hp.registry, hp.defaultConverter, hu, Value.reread_of_convert hu]
  rfl

/-- A standard parser reads values again that it can convert. -/
theorem Parser.IsStandard.rereads (hp : p.IsStandard) {n : Node}
    (h : ∀ v ∈ n.leaves, p.Converts v.canonical) : p.Rereads Value.reread n :=
  fun v hv => hp.convert_canonical (h v hv)

/-- A tag with a colon makes a word of what can be in one. -/
theorem Text.isWord_tagged {tag body : String} (htag : ∀ c ∈ tag.toList, isWordChar c)
    (hbody : ∀ c ∈ body.toList, isWordChar c) : isWord (tag ++ ":" ++ body) := by
  refine isWord_iff.mpr ⟨fun hempty => ?_, Registry.isWordChar_tagged htag hbody⟩
  simpa using congrArg String.toList hempty

theorem Value.isWord_of_isReadable {v : Value} (hv : v.isReadable) : v.isWord := by
  by_cases ht : v.isTimely
  · obtain ⟨hne, hchars, -⟩ := Registry.readsAs_canonical hv ht
    exact Text.isWord_iff.mpr ⟨hne, hchars⟩
  · -- Only dates need not be read back, and their texts are words all the same.
    cases v with
    | date t =>
      have htag : ∀ c ∈ "epoch".toList, Text.isWordChar c := List.all_eq_true.mp (by decide)
      exact Text.isWord_tagged htag fun c hc => Registry.isWordChar_of_isDecimalChar
        (Number.isDecimalChar_integerText t.millis c hc)
    | _ => exact absurd rfl ht

namespace TextStyle

theorem isWord_string (s : String) : Text.isWord (({} : TextStyle).string s) :=
  Value.isWord_of_isReadable (v := .string s) rfl

theorem isWord_pattern (p : Pattern) : Text.isWord (({} : TextStyle).pattern p) := by
  have htag : ∀ c ∈ "re".toList, Text.isWordChar c := List.all_eq_true.mp (by decide)
  unfold pattern
  split
  · exact Text.isWord_tagged htag fun _ => Percent.isWordChar_of_mem_encode
  · exact Text.isWord_tagged htag fun _ => Percent.isWordChar_of_mem_encode

end TextStyle

section Readable

variable {v : Value} (hv : v.isReadable) (ht : v.isTimely)

include hv ht

/-- **A value that is read again is equal to the first**, if its dates are whole milliseconds. -/
theorem Value.eqv_reread : v.reread.eqv v := by
  obtain ⟨-, -, u, hu, heqv⟩ := Registry.readsAs_canonical hv ht
  rwa [Value.reread_of_convert hu]

theorem Parser.IsStandard.converts_canonical (hp : p.IsStandard) : p.Converts v.canonical := by
  obtain ⟨-, -, u, hu, -⟩ := Registry.readsAs_canonical hv ht
  exact hp.converts hu

end Readable

/-! ## Nodes -/

/-- A tree with equal values in place of its own is equal. -/
theorem Node.eqv_mapValues {f : Value → Value} {n : Node} (h : ∀ v ∈ n.leaves, (f v).eqv v) :
    (n.mapValues f).eqv n := by
  have hmembers : ∀ ns : List Node, (∀ n ∈ ns, (n.mapValues f).eqv n) →
      Node.eqvList (ns.map (Node.mapValues f)) ns := by
    intro ns hns
    rw [Node.eqvList_iff, List.forall₂_map_left_iff, List.forall₂_same]
    exact hns
  induction n with
  | term name args ih =>
    rw [Node.leaves_term] at h
    simpa [Node.eqv] using hmembers args fun m hm =>
      ih m hm fun v hv => h v (List.mem_flatMap_of_mem hm hv)
  | list items ih =>
    rw [Node.leaves_list] at h
    simpa [Node.eqv] using hmembers items fun m hm =>
      ih m hm fun v hv => h v (List.mem_flatMap_of_mem hm hv)
  | value v => simpa [Node.eqv] using h v (by simp)

/-- A text reads back as a node: it is legible, and its values are read as equal ones. -/
structure ReadsBack (p : Parser) (text : String) (n : Node) : Prop where
  legible : Legible text n
  converts : ∀ v ∈ n.leaves, p.Converts v.canonical
  eqv : (n.mapValues Value.reread).eqv n

theorem readsBack_prefix {name : String} (hname : Text.isWord name) {text : String} {n : Node}
    (h : ReadsBack p text n) :
    ReadsBack p (name ++ TextStyle.parenthesized "," [text]) (.term (some name) [n]) where
  legible := legible_prefix hname (.cons h.legible .nil)
  converts v hv := h.converts v (by simpa using hv)
  eqv := by simp [Node.eqv, Node.eqvList, h.eqv]

theorem forall₂_readsBack_nodes {style : TextStyle} {ns : List Node}
    (h : ∀ n ∈ ns, ReadsBack p (style.node n) n) :
    List.Forall₂ (ReadsBack p) (style.nodes ns) ns := by
  rw [nodes_eq_map, List.forall₂_map_left_iff, List.forall₂_same]
  exact h

theorem Node.all_mono {name : Option String → Bool} {value test : Value → Bool} {n : Node}
    (h : n.all name value) (htest : ∀ v ∈ n.leaves, test v) : n.all name test := by
  induction n with
  | term m args ih =>
    obtain ⟨hm, hargs⟩ := Node.all_term.mp h
    rw [Node.leaves_term] at htest
    exact Node.all_term.mpr ⟨hm, fun k hk =>
      ih k hk (hargs k hk) fun v hv => htest v (List.mem_flatMap_of_mem hk hv)⟩
  | list items ih =>
    rw [Node.leaves_list] at htest
    exact Node.all_list.mpr fun k hk =>
      ih k hk (Node.all_list.mp h k hk) fun v hv => htest v (List.mem_flatMap_of_mem hk hv)
  | value v => exact Node.all_value.mpr (htest v (by simp))

/-- **The canonical text of a node reads back.** -/
theorem readsBack_node (hp : p.IsStandard) {n : Node}
    (hn : n.all Parser.isTermName Value.isReadable) (ht : n.allValues Value.isTimely) :
    ReadsBack p (({} : TextStyle).node n) n where
  legible := legible_node (Node.all_mono hn fun _ hv =>
    Value.isWord_of_isReadable (Node.of_mem_leaves hn hv))
  converts _ hv := hp.converts_canonical (Node.of_mem_leaves hn hv) (Node.of_mem_leaves ht hv)
  eqv := Node.eqv_mapValues fun _ hv =>
    Value.eqv_reread (Node.of_mem_leaves hn hv) (Node.of_mem_leaves ht hv)

/-! ## Roots -/

/-- The words that stand for values in a text that is accepted are converted. -/
theorem Parser.converts_of_expands {text : String} {t : Term} (h : p.parse text = .ok t)
    (htext : p.ExpandsInfix text) {ts : List Token} (hexpands : Expands text.toList ts)
    (hspells : Spells ts) {w : String} (hw : Token.HasValue ts w) : p.Converts w := by
  refine converts_of_hasValue h ?_ hw
  have happly := hexpands.apply Shorthand.closes_nil
  simp only [List.append_nil, Rule.apply_nil] at happly
  rw [htext, Shorthand.expandInfix, String.toList_ofList, happly]
  exact hspells.cuts

section Roots

variable (hp : p.IsStandard) {texts : List String} {ns : List Node}
  (h : List.Forall₂ Legible texts ns) {t : Term}

include hp h

/-- **Members with `&` between them** are a conjunction, if all their values can be read. -/
theorem parse_conjunction_iff (htext : p.ExpandsInfix (String.intercalate "&" texts)) :
    p.parse (String.intercalate "&" texts) = .ok t ↔
      (∀ v ∈ ns.flatMap Node.leaves, p.Converts v.canonical) ∧
        t = Parser.rootTerm (some andName) (ns.map (Node.mapValues Value.reread)) := by
  obtain ⟨tss, htss⟩ := exists_readings h
  have hparse : (∀ v ∈ ns.flatMap Node.leaves, p.Converts v.canonical) →
      p.parse (String.intercalate "&" texts) =
        .ok (Parser.rootTerm (some andName) (ns.map (Node.mapValues Value.reread))) := by
    intro hconverts
    obtain ⟨name, hparse, hname⟩ := Parser.parse_conjunction_of_denotes htss.expands htss.spells
      (htss.denotes fun n hn => hp.rereads fun v hv => hconverts v (List.mem_flatMap_of_mem hn hv))
      htext
    rw [hparse, Parser.rootTerm_of_getD hname]
  constructor
  · intro ht
    have hconverts : ∀ v ∈ ns.flatMap Node.leaves, p.Converts v.canonical := fun v hv =>
      Parser.converts_of_expands ht htext (isSeparator_ampersand.expands htss.expands)
        (Spells.intercalate isSeparator_ampersand.punctuation htss.spells)
        (htss.hasValue isSeparator_ampersand.ne_opening v hv)
    exact ⟨hconverts, Except.ok.inj (ht.symm.trans (hparse hconverts))⟩
  · rintro ⟨hconverts, rfl⟩
    exact hparse hconverts

/-- **The text of a disjunction** denotes it, if all its values can be read. -/
theorem parse_disjunction_iff (htext : p.ExpandsInfix (TextStyle.disjunction texts)) :
    p.parse (TextStyle.disjunction texts) = .ok t ↔
      (∀ v ∈ ns.flatMap Node.leaves, p.Converts v.canonical) ∧
        t = ⟨some orName, ns.map (Node.mapValues Value.reread)⟩ := by
  obtain ⟨tss, htss⟩ := exists_readings h
  have hparse : (∀ v ∈ ns.flatMap Node.leaves, p.Converts v.canonical) →
      p.parse (TextStyle.disjunction texts) =
        .ok ⟨some orName, ns.map (Node.mapValues Value.reread)⟩ := fun hconverts =>
    Parser.parse_disjunction_of_denotes htss.expands htss.spells
      (htss.denotes fun n hn => hp.rereads fun v hv => hconverts v (List.mem_flatMap_of_mem hn hv))
      htext
  constructor
  · intro ht
    have hconverts : ∀ v ∈ ns.flatMap Node.leaves, p.Converts v.canonical := fun v hv =>
      Parser.converts_of_expands ht htext (Parser.expands_disjunction htss.expands)
        (Parser.spells_disjunctionTokens htss.spells)
        (Parser.hasValue_disjunctionTokens (htss.hasValue isSeparator_pipe.ne_opening v hv))
    exact ⟨hconverts, Except.ok.inj (ht.symm.trans (hparse hconverts))⟩
  · rintro ⟨hconverts, rfl⟩
    exact hparse hconverts

end Roots

/-- The default parser expands infix operators and nothing else. -/
theorem expandsInfix_default (text : String) : ({} : Parser).ExpandsInfix text := rfl

/-- What is known of texts that read back, for all of them together. -/
theorem all_of_readsBack {texts : List String} {ns : List Node}
    (h : List.Forall₂ (ReadsBack p) texts ns) :
    List.Forall₂ Legible texts ns ∧ (∀ v ∈ ns.flatMap Node.leaves, p.Converts v.canonical) ∧
      Node.eqvList (ns.map (Node.mapValues Value.reread)) ns := by
  induction h with
  | nil => exact ⟨.nil, by simp, by simp [Node.eqvList]⟩
  | cons hn _ ih =>
    obtain ⟨hlegible, hconverts, heqv⟩ := ih
    refine ⟨.cons hn.legible hlegible, fun v hv => ?_, by simp [Node.eqvList, hn.eqv, heqv]⟩
    rcases List.mem_append.mp (List.flatMap_cons ▸ hv) with hv | hv
    · exact hn.converts v hv
    · exact hconverts v hv

/-- Members with `&` between them are a conjunction; a single one may be collapsed. -/
theorem parse_conjunction {texts : List String} {ns : List Node}
    (h : List.Forall₂ (ReadsBack {}) texts ns) :
    ∃ ms, ({} : Parser).parse (String.intercalate "&" texts) =
      .ok (Parser.rootTerm (some andName) ms) ∧ Node.eqvList ms ns := by
  obtain ⟨hlegible, hconverts, heqv⟩ := all_of_readsBack h
  exact ⟨_, (parse_conjunction_iff isStandard_default hlegible (expandsInfix_default _)).mpr
    ⟨hconverts, rfl⟩, heqv⟩

/-- The text of the members of a disjunction denotes it, also if there are few of them. -/
theorem parse_disjunction {texts : List String} {ns : List Node}
    (h : List.Forall₂ (ReadsBack {}) texts ns) :
    ∃ ms, ({} : Parser).parse (TextStyle.disjunction texts) = .ok ⟨some orName, ms⟩ ∧
      Node.eqvList ms ns := by
  obtain ⟨hlegible, hconverts, heqv⟩ := all_of_readsBack h
  exact ⟨_, (parse_disjunction_iff isStandard_default hlegible (expandsInfix_default _)).mpr
    ⟨hconverts, rfl⟩, heqv⟩

theorem Node.exists_of_eqv_term {m : Node} {name : Option String} {args : List Node}
    (h : m.eqv (.term name args)) : ∃ ms, m = .term name ms ∧ Node.eqvList ms args := by
  cases m with
  | term name' ms =>
    simp only [Node.eqv, Bool.and_eq_true, beq_iff_eq] at h
    exact ⟨ms, by rw [h.1], h.2⟩
  | list => simp [Node.eqv] at h
  | value => simp [Node.eqv] at h

theorem Node.exists_of_term_eqv {name : Option String} {ms : List Node} {n : Node}
    (h : (Node.term name ms).eqv n) : ∃ args, n = .term name args := by
  cases n with
  | term name' args =>
    simp only [Node.eqv, Bool.and_eq_true, beq_iff_eq] at h
    exact ⟨args, by rw [h.1]⟩
  | list => simp [Node.eqv] at h
  | value => simp [Node.eqv] at h

namespace Term

/-- A conjunction is written as its members, unless it is a single conjunction. -/
theorem canonical_conjunction {args : List Node}
    (h : ∀ inner, args ≠ [.term (some andName) inner]) :
    (Term.and args).canonical = String.intercalate "&" (({} : TextStyle).nodes args) := by
  have hand : (Term.and args).isNamed andName := by simp [Term.and, isNamed]
  rw [canonical, TextStyle.term, TextStyle.root, if_pos hand]
  split
  · next name inner hargs =>
    rw [if_neg]
    · rfl
    · rintro rfl
      exact h inner hargs
  · rfl

/-- A single conjunction is written in prefix form, with its name. -/
theorem canonical_nested (inner : List Node) :
    (Term.and [.term (some andName) inner]).canonical =
      andName ++ TextStyle.parenthesized "," [({} : TextStyle).node (.term (some andName) inner)] := by
  rw [← String.toList_inj]
  simp [canonical, TextStyle.term, TextStyle.root, Term.and, isNamed, TextStyle.parenthesized,
    andName]

/-- A disjunction is written as its members. -/
theorem canonical_disjunction (args : List Node) :
    Term.canonical ⟨some orName, args⟩ = TextStyle.disjunction (({} : TextStyle).nodes args) := by
  simp [canonical, TextStyle.term, TextStyle.root, isNamed, andName, orName]

end Term

/-- A conjunction is read back as itself, whatever its members are. -/
theorem parse_canonical_conjunction {args : List Node}
    (h : ∀ n ∈ args, ReadsBack {} (({} : TextStyle).node n) n) :
    ∃ ms, ({} : Parser).parse (Term.and args).canonical = .ok (Term.and ms) ∧
      Node.eqvList ms args := by
  by_cases hnested : ∃ inner, args = [.term (some andName) inner]
  · -- The extra `and(..)` around a single conjunction is what the root collapses.
    obtain ⟨inner, rfl⟩ := hnested
    have hword : Text.isWord andName := by decide
    have hinner := readsBack_prefix hword (h _ List.mem_cons_self)
    obtain ⟨ms, hparse, heqv⟩ := parse_conjunction (.cons hinner .nil)
    rw [Node.eqvList_iff] at heqv
    obtain _ | ⟨hm, _ | _⟩ := heqv
    obtain ⟨ms, rfl, heqv⟩ := Node.exists_of_eqv_term hm
    refine ⟨ms, ?_, heqv⟩
    rw [String.intercalate_singleton, Parser.rootTerm_nested rfl] at hparse
    rw [Term.canonical_nested, hparse]
  · have hsingle : ∀ inner, args ≠ [.term (some andName) inner] := fun inner hinner =>
      hnested ⟨inner, hinner⟩
    obtain ⟨ms, hparse, heqv⟩ := parse_conjunction (forall₂_readsBack_nodes h)
    refine ⟨ms, ?_, heqv⟩
    rw [Term.canonical_conjunction hsingle, hparse, Parser.rootTerm_conjunction rfl]
    rintro inner rfl
    rw [Node.eqvList_iff] at heqv
    obtain _ | ⟨hm, _ | _⟩ := heqv
    obtain ⟨args, rfl⟩ := Node.exists_of_term_eqv hm
    exact hsingle args rfl

/-- **Canonical text is read back.**  Whatever tree a text denotes, its canonical text denotes an
equal one, if the dates in it are whole milliseconds. -/
theorem parse_canonical {text : String} {t : Term} (h : parse text = .ok t)
    (ht : t.toNode.allValues Value.isTimely) :
    ∃ t', parse t.canonical = .ok t' ∧ t'.eqv t := by
  obtain ⟨hall, hroot⟩ := Parser.shaped_of_parse (Parser.gives_isReadable rfl rfl) h
  obtain ⟨name, args⟩ := t
  have hargs : ∀ n ∈ args, ReadsBack {} (({} : TextStyle).node n) n := fun n hn =>
    readsBack_node isStandard_default ((Node.all_term.mp hall).2 n hn)
      (Node.allValues_term.mp ht n hn)
  simp only [Term.isNamed, beq_iff_eq] at hroot
  rcases hroot with rfl | rfl
  · obtain ⟨ms, hparse, heqv⟩ := parse_canonical_conjunction hargs
    exact ⟨_, hparse, by simpa [Term.eqv, Term.toNode, Term.and, Node.eqv] using heqv⟩
  · obtain ⟨ms, hparse, heqv⟩ := parse_disjunction (forall₂_readsBack_nodes hargs)
    refine ⟨_, by rw [Term.canonical_disjunction]; exact hparse, ?_⟩
    simpa [Term.eqv, Term.toNode, Node.eqv] using heqv

/-- A disjunction inside a conjunction, with a list for an operand, a string that looks like a
number, and a date. -/
theorem parse_canonical_mixed :
    ∃ t, parse "((a,b)=in=()|c<string:7)&d>=epoch:1500" = .ok t ∧
      t.toNode.allValues Value.isTimely ∧
      ∃ t', parse t.canonical = .ok t' ∧ t'.eqv t := by
  have hparse : parse "((a,b)=in=()|c<string:7)&d>=epoch:1500" =
      .ok (Term.and [
        .term (some "or") [
          .term (some "in") [.list [.value (.string "a"), .value (.string "b")], .list []],
          .term (some "lt") [.value (.string "c"), .value (.string "7")]],
        .term (some "ge") [.value (.string "d"), .value (.date ⟨1, 500000000⟩)]]) := by
    with_unfolding_all rfl
  exact ⟨_, hparse, by decide, parse_canonical hparse (by decide)⟩

end ResourceQuery
