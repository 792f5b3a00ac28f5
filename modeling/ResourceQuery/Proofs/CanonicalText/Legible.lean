import ResourceQuery.Proofs.Parser.Conservation
import ResourceQuery.Proofs.Shorthand.Expansion

/-!
# Canonical text is legible

The canonical text of a node expands to tokens, the scanner finds these tokens, and the stack
machine builds the node from them.  All three are composed along the tree: each way to write a node
from the texts of its parts is a way to read it.  Only the words that stand for values are left
open.  What they are read as is up to the converters, so a text is legible as a node if, whatever
these make of the words, the machine builds the node with these values in it.

## Main definitions

* `Parser.Rereads`: the converters read the texts of a tree's values as a function says
* `Reading`, `Legible`: the tokens of a text that is read as a node

## Main results

* `legible_application`: a term from the texts of its arguments
* `legible_node`: the canonical text of a node
* `Parser.parse_conjunction_of_denotes`, `Parser.parse_disjunction_of_denotes`: roots
-/

namespace ResourceQuery

open Shorthand (Expands)
open Token (Spells HasValue)

variable {p : Parser}

namespace Token

/-- Tokens with punctuation between them are scanned from their spelling. -/
theorem Spells.intercalate {c : Char} {sign : Token} (hsign : ofPunctuation? c = some sign)
    {tss : List (List Token)} (h : ∀ ts ∈ tss, Spells ts) : Spells ([sign].intercalate tss) := by
  induction tss with
  | nil => exact spells_nil
  | cons ts tss ih =>
    obtain ⟨hts, htss⟩ := List.forall_mem_cons.mp h
    cases tss with
    | nil => simpa using hts
    | cons us tss =>
      rw [List.intercalate_cons_cons, List.append_assoc, List.singleton_append]
      exact hts.join hsign (ih htss)

/-- Tokens in parentheses are scanned from their own spelling. -/
theorem Spells.inParentheses {ts : List Token} (h : Spells ts) :
    Spells (Parser.inParentheses ts) := by
  have hopening : ofPunctuation? '(' = some .opening := rfl
  have hclosing : ofPunctuation? ')' = some .closing := rfl
  exact (h.join hclosing spells_nil).cons hopening

/-- A name in front of tokens in parentheses is scanned with them. -/
theorem Spells.term {name : String} (hname : Text.isWord name) {ts : List Token} (h : Spells ts) :
    Spells (.word name :: Parser.inParentheses ts) := by
  have hopening : ofPunctuation? '(' = some .opening := rfl
  have hclosing : ofPunctuation? ')' = some .closing := rfl
  exact (spells_word hname).join hopening (h.join hclosing spells_nil)

section HasValue

variable {ts : List Token} {w : String}

theorem hasValue_word (w : String) : HasValue [word w] w := ⟨[], [], rfl, by simp⟩

/-- A value word is one whatever comes before it. -/
theorem HasValue.append_left (us : List Token) (h : HasValue ts w) : HasValue (us ++ ts) w := by
  obtain ⟨vs, ws, rfl, hws⟩ := h
  exact ⟨us ++ vs, ws, by simp, hws⟩

/-- A value word is one whatever comes behind it, other than a `(`. -/
theorem HasValue.append_right {us : List Token} (hus : us.head? ≠ some opening)
    (h : HasValue ts w) : HasValue (ts ++ us) w := by
  obtain ⟨vs, ws, rfl, hws⟩ := h
  refine ⟨vs, ws ++ us, by simp, ?_⟩
  cases ws with
  | nil => exact hus
  | cons t ws => exact hws

theorem HasValue.inParentheses (h : HasValue ts w) : HasValue (Parser.inParentheses ts) w := by
  have hclosing : [closing].head? ≠ some opening := by simp
  exact (h.append_left [opening]).append_right hclosing

theorem HasValue.intercalate {sign : Token} (hsign : sign ≠ opening) {tss : List (List Token)}
    (hts : ts ∈ tss) (h : HasValue ts w) : HasValue ([sign].intercalate tss) w := by
  induction tss with
  | nil => cases hts
  | cons us tss ih =>
    cases tss with
    | nil =>
      obtain rfl := List.mem_singleton.mp hts
      simpa using h
    | cons vs tss =>
      rw [List.intercalate_cons_cons]
      rcases List.mem_cons.mp hts with rfl | hts
      · rw [List.append_assoc]
        exact h.append_right (by simpa using hsign)
      · exact (ih hts).append_left (us ++ [sign])

end HasValue

end Token

/-! ## Readings -/

/-- The parser reads the canonical texts of the tree's values as `f` says. -/
def Parser.Rereads (p : Parser) (f : Value → Value) (n : Node) : Prop :=
  ∀ v ∈ n.leaves, p.convert v.canonical = .ok (.value (f v))

/-- The tokens of a text that is read as a node, up to its values. -/
structure Reading (text : String) (n : Node) (ts : List Token) : Prop where
  expands : Expands text.toList ts
  spells : Spells ts
  /-- The values are read from their canonical texts. -/
  values : ∀ v ∈ n.leaves, HasValue ts v.canonical
  denotes : ∀ {p : Parser} {f}, p.Rereads f n → p.Denotes ts (n.mapValues f)

/-- A text is read as a node, up to its values. -/
def Legible (text : String) (n : Node) : Prop := ∃ ts, Reading text n ts

/-- The tokens of some texts that are read as nodes. -/
structure Readings (texts : List String) (ns : List Node) (tss : List (List Token)) : Prop where
  expands : List.Forall₂ Expands (texts.map String.toList) tss
  spells : ∀ ts ∈ tss, Spells ts
  values : ∀ v ∈ ns.flatMap Node.leaves, ∃ ts ∈ tss, HasValue ts v.canonical
  denotes : ∀ {p : Parser} {f}, (∀ n ∈ ns, p.Rereads f n) →
    List.Forall₂ p.Denotes tss (ns.map (Node.mapValues f))

/-- Legible texts have their readings, one for each. -/
theorem exists_readings {texts : List String} {ns : List Node}
    (h : List.Forall₂ Legible texts ns) : ∃ tss, Readings texts ns tss := by
  induction h with
  | nil => exact ⟨[], .nil, by simp, by simp, fun _ => .nil⟩
  | cons hn _ ih =>
    obtain ⟨ts, hts⟩ := hn
    obtain ⟨tss, htss⟩ := ih
    refine ⟨ts :: tss, .cons hts.expands htss.expands,
      List.forall_mem_cons.mpr ⟨hts.spells, htss.spells⟩, fun v hv => ?_, fun hread => ?_⟩
    · rcases List.mem_append.mp (List.flatMap_cons ▸ hv) with hv | hv
      · exact ⟨ts, List.mem_cons_self, hts.values v hv⟩
      · obtain ⟨us, hus, hvalue⟩ := htss.values v hv
        exact ⟨us, List.mem_cons_of_mem ts hus, hvalue⟩
    · obtain ⟨hn, hns⟩ := List.forall_mem_cons.mp hread
      exact .cons (hts.denotes hn) (htss.denotes hns)

theorem Readings.length_eq {texts : List String} {ns : List Node} {tss : List (List Token)}
    (h : Readings texts ns tss) : texts.length = tss.length := by
  rw [← h.expands.length_eq, List.length_map]

/-- The words of the values of some nodes are value words of their texts. -/
theorem Readings.hasValue {texts : List String} {ns : List Node} {tss : List (List Token)}
    (h : Readings texts ns tss) {sign : Token} (hsign : sign ≠ .opening) :
    ∀ v ∈ ns.flatMap Node.leaves, HasValue ([sign].intercalate tss) v.canonical := by
  intro v hv
  obtain ⟨ts, hts, hvalue⟩ := h.values v hv
  exact hvalue.intercalate hsign hts

/-- What is known of the values of a node is known of its arguments. -/
theorem Parser.Rereads.args {f : Value → Value} {name : Option String} {ns : List Node}
    (h : p.Rereads f (.term name ns)) : ∀ n ∈ ns, p.Rereads f n := by
  intro n hn v hv
  exact h v (by rw [Node.leaves_term]; exact List.mem_flatMap_of_mem hn hv)

theorem Parser.Rereads.items {f : Value → Value} {ns : List Node}
    (h : p.Rereads f (.list ns)) : ∀ n ∈ ns, p.Rereads f n := by
  intro n hn v hv
  exact h v (by rw [Node.leaves_list]; exact List.mem_flatMap_of_mem hn hv)

/-! ## Parts -/

/-- A separator: its character, its token and the text of it. -/
structure IsSeparator (text : String) (c : Char) (sign : Token) : Prop where
  toList : text.toList = [c]
  mem : c ∈ [',', '&', '|']
  punctuation : Token.ofPunctuation? c = some sign

theorem IsSeparator.chars {text : String} {c : Char} {sign : Token}
    (h : IsSeparator text c sign) : sign.chars = [c] :=
  (Token.chars_of_ofPunctuation? h.punctuation).1

theorem IsSeparator.ne_opening {text : String} {c : Char} {sign : Token}
    (h : IsSeparator text c sign) : sign ≠ .opening := by
  rintro rfl
  have hmem := h.mem
  rw [← List.singleton_inj.mp h.chars] at hmem
  exact absurd hmem (by decide)

theorem isSeparator_comma : IsSeparator "," ',' .comma := ⟨rfl, by decide, rfl⟩

theorem isSeparator_ampersand : IsSeparator "&" '&' .ampersand := ⟨rfl, by decide, rfl⟩

theorem isSeparator_pipe : IsSeparator "|" '|' .pipe := ⟨rfl, by decide, rfl⟩

/-- Texts with a separator between them expand to their expansions with the sign between. -/
theorem IsSeparator.expands {text : String} {c : Char} {sign : Token}
    (hsign : IsSeparator text c sign) {texts : List String} {tss : List (List Token)}
    (h : List.Forall₂ Expands (texts.map String.toList) tss) :
    Expands (String.intercalate text texts).toList ([sign].intercalate tss) := by
  rw [String.toList_intercalate, hsign.toList]
  exact Shorthand.expands_intercalate hsign.mem hsign.chars h

/-- Items in parentheses, as characters. -/
theorem toList_parenthesized (separator : String) (items : List String) :
    (TextStyle.parenthesized separator items).toList =
      '(' :: ((String.intercalate separator items).toList ++ [')']) := by
  simp [TextStyle.parenthesized]

/-- **A list is legible**, if its items are. -/
theorem legible_list {texts : List String} {ns : List Node} (h : List.Forall₂ Legible texts ns) :
    Legible (TextStyle.parenthesized "," texts) (.list ns) := by
  obtain ⟨tss, htss⟩ := exists_readings h
  refine ⟨_, ?_, (Spells.intercalate isSeparator_comma.punctuation htss.spells).inParentheses, ?_,
    fun hread => ?_⟩
  · rw [toList_parenthesized]
    exact Shorthand.expands_inParentheses (isSeparator_comma.expands htss.expands)
  · rw [Node.leaves_list]
    exact fun v hv => (htss.hasValue isSeparator_comma.ne_opening v hv).inParentheses
  · rw [Node.mapValues_list]
    exact Parser.denotes_list (htss.denotes hread.items)

/-- **A term in prefix form is legible**, if its arguments are. -/
theorem legible_prefix {name : String} (hname : Text.isWord name) {texts : List String}
    {ns : List Node} (h : List.Forall₂ Legible texts ns) :
    Legible (name ++ TextStyle.parenthesized "," texts) (.term (some name) ns) := by
  obtain ⟨tss, htss⟩ := exists_readings h
  refine ⟨_, ?_, (Spells.intercalate isSeparator_comma.punctuation htss.spells).term hname, ?_,
    fun hread => ?_⟩
  · rw [String.toList_append, toList_parenthesized]
    exact Shorthand.expands_term hname (isSeparator_comma.expands htss.expands)
  · rw [Node.leaves_term]
    exact fun v hv => (htss.hasValue isSeparator_comma.ne_opening v hv).inParentheses.append_left
      [.word name]
  · rw [Node.mapValues_term]
    exact Parser.denotes_term name (htss.denotes hread.args)

/-- A group is legible, and takes its name from the signs. -/
theorem legible_group {name separator : String} {c : Char} {sign : Token}
    (hsign : IsSeparator separator c sign)
    (hfirst : ∀ {p : Parser}, p.Separates sign none (some name))
    (hnext : ∀ {p : Parser}, p.Separates sign (some name) (some name)) {texts : List String}
    {ns : List Node} (h : List.Forall₂ Legible texts ns) (hlength : 2 ≤ texts.length) :
    Legible (TextStyle.parenthesized separator texts) (.term (some name) ns) := by
  obtain ⟨tss, htss⟩ := exists_readings h
  have hlength : 2 ≤ tss.length := htss.length_eq ▸ hlength
  refine ⟨_, ?_, (Spells.intercalate hsign.punctuation htss.spells).inParentheses, ?_,
    fun hread => ?_⟩
  · rw [toList_parenthesized]
    exact Shorthand.expands_inParentheses (hsign.expands htss.expands)
  · rw [Node.leaves_term]
    exact fun v hv => (htss.hasValue hsign.ne_opening v hv).inParentheses
  · rw [Node.mapValues_term]
    exact Parser.denotes_group hfirst hnext (htss.denotes hread.args) hlength

/-- What is written on the left of a sign is read as an operand. -/
theorem isOperand_of_isLeftOperand {s : String} (h : TextStyle.isLeftOperand s) :
    Shorthand.IsOperand false s.toList := by
  simp only [TextStyle.isLeftOperand, Bool.or_eq_true, Bool.and_eq_true, List.all_eq_true] at h
  exact h.imp_right And.right

/-- What is written on the right of a sign is read as an operand. -/
theorem isOperand_of_isRightOperand {s : String} (h : TextStyle.isRightOperand s) :
    Shorthand.IsOperand true s.toList := by
  simp only [TextStyle.isRightOperand, Bool.or_eq_true, List.all_eq_true] at h
  exact h

/-- A comparison is legible, infix or not. -/
theorem legible_comparison {name symbol left right : String} (hname : Text.isWord name)
    (hsymbol : TextStyle.infixSign? name = some symbol) {l r : Node} (hl : Legible left l)
    (hr : Legible right r) :
    Legible (TextStyle.comparison name symbol left right) (.term (some name) [l, r]) := by
  unfold TextStyle.comparison
  split_ifs with hoperands
  · -- Both operands can stand beside a sign; otherwise the prefix form is written.
    obtain ⟨c, hc, hsign⟩ := Option.bind_eq_some_iff.mp hsymbol
    obtain rfl : c.name = name := by simpa using List.find?_some hc
    rw [Bool.and_eq_true] at hoperands
    obtain ⟨ls, hls⟩ := hl
    obtain ⟨rs, hrs⟩ := hr
    have hspells := hls.spells.join isSeparator_comma.punctuation hrs.spells
    refine ⟨.word c.name :: Parser.inParentheses (ls ++ .comma :: rs), ?_, hspells.term hname,
      fun v hv => ?_, fun hread => ?_⟩
    · rw [String.toList_append, String.toList_append]
      exact Shorthand.expands_infix hsign hls.expands hrs.expands
        (isOperand_of_isLeftOperand hoperands.1) (isOperand_of_isRightOperand hoperands.2)
    · have hvalue : HasValue (ls ++ .comma :: rs) v.canonical := by
        rcases List.mem_append.mp (by simpa using hv) with hv | hv
        · exact (hls.values v hv).append_right (by simp)
        · exact ((hrs.values v hv).append_left [.comma]).append_left ls
      exact hvalue.inParentheses.append_left [.word c.name]
    · have hargs := hread.args
      have hdenotes := Parser.denotes_term c.name
        (.cons (hls.denotes (hargs l (by simp))) (.cons (hrs.denotes (hargs r (by simp))) .nil))
      simpa [List.intercalate_cons_cons] using hdenotes
  · exact legible_prefix hname (.cons hl (.cons hr .nil))

/-- **A term is legible from the texts of its arguments.** -/
theorem legible_application {name : String} (hname : Text.isWord name) {texts : List String}
    {ns : List Node} (h : List.Forall₂ Legible texts ns) :
    Legible (TextStyle.application name texts) (.term (some name) ns) := by
  unfold TextStyle.application
  split
  · next sign first second rest hsign =>
    have hlength : 2 ≤ (first :: second :: rest).length := by simp
    unfold TextStyle.groupSign? at hsign
    split_ifs at hsign with hand hor
    · cases hsign
      subst hand
      exact legible_group isSeparator_ampersand (Parser.separates_ampersand (by simp))
        (Parser.separates_ampersand (by simp)) h hlength
    · cases hsign
      subst hor
      exact legible_group isSeparator_pipe (Parser.separates_pipe (by simp))
        (Parser.separates_pipe (by simp)) h hlength
  · split
    · next symbol left right hsymbol _ =>
      rcases h with _ | ⟨hl, _ | ⟨hr, _ | _⟩⟩
      exact legible_comparison hname hsymbol hl hr
    · exact legible_prefix hname h

/-! ## Nodes -/

/-- Nodes are written one by one. -/
theorem nodes_eq_map (style : TextStyle) (ns : List Node) :
    style.nodes ns = ns.map style.node := by
  induction ns with
  | nil => rfl
  | cons n ns ih => rw [TextStyle.nodes, ih, List.map_cons]

/-- The canonical text of a value is a word. -/
def Value.isWord (v : Value) : Bool := Text.isWord v.canonical

/-- A value that is written as a word is legible. -/
theorem legible_value {v : Value} (hv : v.isWord) : Legible v.canonical (.value v) := by
  refine ⟨_, Shorthand.expands_word hv, Token.spells_word hv, ?_, fun hread => ?_⟩
  · simpa using Token.hasValue_word v.canonical
  · rw [Node.mapValues_value]
    exact Parser.denotes_word (hread v (by simp))

theorem forall₂_legible_nodes {ns : List Node}
    (h : ∀ n ∈ ns, Legible (({} : TextStyle).node n) n) :
    List.Forall₂ Legible (({} : TextStyle).nodes ns) ns := by
  rw [nodes_eq_map, List.forall₂_map_left_iff, List.forall₂_same]
  exact h

/-- **The canonical text of a node is legible.** -/
theorem legible_node {n : Node} (hn : n.all Parser.isTermName Value.isWord) :
    Legible (({} : TextStyle).node n) n := by
  induction n with
  | term name args ih =>
    obtain ⟨hname, hargs⟩ := Node.all_term.mp hn
    have hmembers := forall₂_legible_nodes fun m hm => ih m hm (hargs m hm)
    cases name with
    | none => cases hname
    | some name => exact legible_application hname hmembers
  | list items ih =>
    exact legible_list (forall₂_legible_nodes fun m hm => ih m hm (Node.all_list.mp hn m hm))
  | value v => exact legible_value (Node.all_value.mp hn)

/-! ## Roots -/

namespace Parser

/-- A root that is no single conjunction is taken as it is. -/
theorem rootTerm_conjunction {name : Option String} (hname : name.getD andName = andName)
    {args : List Node} (h : ∀ inner, args ≠ [.term (some andName) inner]) :
    rootTerm name args = Term.and args := by
  unfold rootTerm
  rw [hname]
  split
  · next inner innerArgs =>
    rw [if_neg]
    · rfl
    · rintro ⟨-, rfl⟩
      exact h innerArgs rfl
  · rfl

/-- A single conjunction takes the place of the root. -/
theorem rootTerm_nested {name : Option String} (hname : name.getD andName = andName)
    (inner : List Node) : rootTerm name [.term (some andName) inner] = Term.and inner := by
  simp [rootTerm, hname, Term.and]

theorem rootTerm_of_getD {name : Option String} (hname : name.getD andName = andName)
    (args : List Node) : rootTerm name args = rootTerm (some andName) args := by
  unfold rootTerm
  rw [hname]
  rfl

/-- A disjunction is never collapsed. -/
theorem rootTerm_orName (ms : List Node) : rootTerm (some orName) ms = ⟨some orName, ms⟩ := by
  unfold rootTerm
  dsimp only
  split
  · rw [if_neg (by simp [orName, andName])]
    rfl
  · rfl

/-- The frame at the start, with a name and some arguments. -/
theorem rootTerm_pushAll (name : Option String) (ms : List Node) :
    rootTerm (Frame.pushAll ⟨name, #[], 0⟩ ms).name (Frame.pushAll ⟨name, #[], 0⟩ ms).args.toList =
      rootTerm name ms := by
  simp [Frame.pushAll_eq]

/-- The text has infix operators for its only shorthand. -/
def ExpandsInfix (p : Parser) (text : String) : Prop :=
  p.dialect.expand text = Shorthand.expandInfix text

/-- A text is parsed as what its tokens denote, if these are read from its expansion. -/
theorem parse_of_apply {text : String} {ts : List Token} (htext : p.ExpandsInfix text)
    (hspells : Spells ts) (happly : Shorthand.infixOperator.apply text.toList = Token.spelling ts)
    {name : Option String} {ms : List Node}
    (h : ∃ s captures, p.Runs 0 .start ts s ∧ p.flush s = .ok
      { State.start with frame := Frame.pushAll ⟨name, #[], 0⟩ ms, captures := captures }) :
    p.parse text = .ok (rootTerm name ms) := by
  obtain ⟨s, captures, hruns, hflush⟩ := h
  rw [← rootTerm_pushAll]
  refine parse_of_runs hspells ?_ hruns hflush
  rw [htext, Shorthand.expandInfix, happly]

theorem intercalate_eq_of_length_lt {α : Type} {l : List (List α)} (h : l.length < 2)
    (as bs : List α) : as.intercalate l = bs.intercalate l := by
  match l with
  | [] => rfl
  | [x] => simp
  | _ :: _ :: _ => simp at h

/-- The tokens of a disjunction: with fewer than two members a sign at the end keeps it one. -/
def disjunctionTokens (tss : List (List Token)) : List Token :=
  if tss.length < 2 then [.pipe].intercalate tss ++ [.pipe] else [.pipe].intercalate tss

theorem runs_disjunction {tss : List (List Token)} {ms : List Node}
    (h : List.Forall₂ p.Denotes tss ms) (position : Nat) {s : State} (hslot : s.slot.IsFree)
    (hname : s.frame.name = none) :
    ∃ s₁ captures, p.Runs position s (disjunctionTokens tss) s₁ ∧ p.flush s₁ = .ok
      { s with frame := Frame.pushAll { s.frame with name := some orName } ms, slot := .vacant,
               captures := captures } := by
  unfold disjunctionTokens
  split_ifs with hfew
  · match h with
    | .nil =>
      refine ⟨{ s with frame := { s.frame with name := some orName } }, s.captures,
        .cons ?_ runs_nil, flush_of_isFree hslot⟩
      change p.conjoin orName position s = _
      rw [conjoin, hname, if_neg (by simp)]
      dsimp only
      split
      · next w hw => exact absurd hw (hslot w)
      · rfl
    | .cons (a := ts) hts .nil =>
      obtain ⟨s₁, hruns, hreads⟩ := hts position s hslot
      obtain ⟨slot, captures, hstep, hfree⟩ := separates_pipe (by rfl) hreads hname
        (position + (Token.spelling ts).length)
      exact ⟨_, captures, by simpa using hruns.append (.cons hstep runs_nil), flush_of_isFree hfree⟩
    | .cons _ (.cons _ _) => simp at hfew
  · exact runs_intercalate_naming (separates_pipe (by rfl)) (separates_pipe (by simp)) h
      (not_lt.mp hfew) position hslot hname

theorem hasValue_disjunctionTokens {tss : List (List Token)} {w : String}
    (h : HasValue ([.pipe].intercalate tss) w) : HasValue (disjunctionTokens tss) w := by
  unfold disjunctionTokens
  split_ifs
  · exact h.append_right (by simp)
  · exact h

/-- Nodes with bars between them, in parentheses, denote a disjunction. -/
theorem denotes_disjunction {tss : List (List Token)} {ms : List Node}
    (h : List.Forall₂ p.Denotes tss ms) :
    p.Denotes (inParentheses (disjunctionTokens tss)) (.term (some orName) ms) := by
  intro position s hslot
  have hframe := frame_openTerm (p := p) hslot position
  have hfill := runs_disjunction h (position + 1) (s := p.openTerm position s) Slot.isFree_vacant
    (by rw [hframe])
  rw [hframe] at hfill
  obtain ⟨captures, hruns⟩ :=
    runs_inParentheses (Frame.toNode_pushAll_named orName position ms) hfill
  exact ⟨_, hruns, .pushed captures⟩

section Roots

variable {texts : List String} {tss : List (List Token)} {ms : List Node}
  (hexpands : List.Forall₂ Expands (texts.map String.toList) tss) (hspells : ∀ ts ∈ tss, Spells ts)
  (hdenotes : List.Forall₂ p.Denotes tss ms)

include hexpands hspells hdenotes

/-- Members with `&` between them are a conjunction; a single one may be collapsed. -/
theorem parse_conjunction_of_denotes (htext : p.ExpandsInfix (String.intercalate "&" texts)) :
    ∃ name : Option String, p.parse (String.intercalate "&" texts) = .ok (rootTerm name ms) ∧
      name.getD andName = andName := by
  have happly := (isSeparator_ampersand.expands hexpands).apply Shorthand.closes_nil
  simp only [List.append_nil, Rule.apply_nil] at happly
  have hspells := Spells.intercalate isSeparator_ampersand.punctuation hspells
  by_cases hlength : 2 ≤ tss.length
  · refine ⟨some andName, parse_of_apply htext hspells happly ?_, rfl⟩
    exact runs_intercalate_naming (separates_ampersand (by rfl))
      (separates_ampersand (by simp)) hdenotes hlength 0 Slot.isFree_vacant rfl
  · refine ⟨none, parse_of_apply htext hspells happly ?_, rfl⟩
    rw [intercalate_eq_of_length_lt (not_le.mp hlength) [.ampersand] [.comma]]
    exact runs_intercalate (separates_comma none) hdenotes 0 Slot.isFree_vacant rfl

omit hspells hdenotes in
/-- A disjunction expands to its tokens. -/
theorem expands_disjunction :
    Expands (TextStyle.disjunction texts).toList (disjunctionTokens tss) := by
  have hlength : texts.length = tss.length := by rw [← hexpands.length_eq, List.length_map]
  have hpipe := isSeparator_pipe.expands hexpands
  unfold TextStyle.disjunction disjunctionTokens
  rw [← hlength]
  split_ifs
  · -- The `|` at the end is a separator in front of nothing.
    have hnil := Shorthand.expands_intercalate isSeparator_pipe.mem isSeparator_pipe.chars .nil
    have hdangling := Shorthand.expands_intercalate isSeparator_pipe.mem isSeparator_pipe.chars
      (.cons hpipe (.cons hnil .nil))
    simpa [List.intercalate_cons_cons] using hdangling
  · exact hpipe

omit hexpands hdenotes in
theorem spells_disjunctionTokens : Spells (disjunctionTokens tss) := by
  have hpipe := Spells.intercalate isSeparator_pipe.punctuation hspells
  unfold disjunctionTokens
  split_ifs
  · exact hpipe.join isSeparator_pipe.punctuation Token.spells_nil
  · exact hpipe

/-- The text of the members of a disjunction denotes it, also if there are few of them. -/
theorem parse_disjunction_of_denotes (htext : p.ExpandsInfix (TextStyle.disjunction texts)) :
    p.parse (TextStyle.disjunction texts) = .ok ⟨some orName, ms⟩ := by
  have happly := (expands_disjunction hexpands).apply Shorthand.closes_nil
  simp only [List.append_nil, Rule.apply_nil] at happly
  rw [← rootTerm_orName]
  exact parse_of_apply htext (spells_disjunctionTokens hspells) happly
    (runs_disjunction hdenotes 0 Slot.isFree_vacant rfl)

end Roots

end Parser

/-- A disjunction in parentheses, of any number of members. -/
theorem legible_disjunction {texts : List String} {ns : List Node}
    (h : List.Forall₂ Legible texts ns) :
    Legible ("(" ++ TextStyle.disjunction texts ++ ")") (.term (some orName) ns) := by
  obtain ⟨tss, htss⟩ := exists_readings h
  refine ⟨_, ?_, (Parser.spells_disjunctionTokens htss.spells).inParentheses, fun v hv => ?_,
    fun hread => ?_⟩
  · simpa using Shorthand.expands_inParentheses (Parser.expands_disjunction htss.expands)
  · rw [Node.leaves_term] at hv
    have hvalue := htss.hasValue isSeparator_pipe.ne_opening v hv
    exact (Parser.hasValue_disjunctionTokens hvalue).inParentheses
  · rw [Node.mapValues_term]
    exact Parser.denotes_disjunction (htss.denotes hread.args)

end ResourceQuery
