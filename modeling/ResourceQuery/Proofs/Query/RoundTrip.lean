import ResourceQuery.Proofs.Query.Outline

/-!
# Queries are read back from their texts

The text of a query says again what its clauses say, in clauses of its own.  The words in them are
read as the keys and numbers they were written for, and since the clauses of a query are consistent
it does not matter that all included fields are written before all excluded ones.

A clause that stands deeper in the tree is not moved.  It is written where it stands, after the
clauses of the text, and is the last one of its name when the text is read.  So what a clause says
is known to be read back only if there are none of its kind in the members of the selector.

## Main definitions

* `Query.rewritten`: the clauses of the text of a query as they are read

## Main results

* `Query.IsParsed.part_of_canonical`: a part of the query is read from the clauses of its text
* `Query.parseQuery_canonical`: a query is read back from its text
* `Query.clauses_of_parseQuery_canonical`: projection and paging are, whatever the rest is
-/

namespace ResourceQuery

open Shorthand

/-! ## The words of clauses -/

namespace Literal

theorem splitSign_cases (cs : List Char) :
    splitSign cs = (false, cs) ∨ ∃ sign rest, cs = sign :: rest ∧ (sign = '-' ∨ sign = '+') := by
  unfold splitSign
  split
  · exact .inr ⟨_, _, rfl, .inl rfl⟩
  · exact .inr ⟨_, _, rfl, .inr rfl⟩
  · exact .inl rfl

theorem tail?_negative (p : Parts) (cs : List Char) :
    tail? { p with negative := true } cs =
      (tail? p cs).map fun r => { r with negative := true } := by
  unfold tail?
  split
  · rfl
  · cases exponent? cs <;> rfl

section Unsigned

variable {cs : List Char} (hsign : splitSign cs = (false, cs))

include hsign

theorem hexParts?_minus : hexParts? ('-' :: cs) = (hexParts? cs).map fun r => (true, r.2) := by
  unfold hexParts?
  rw [hsign]
  simp only [splitSign]
  split
  · split_ifs
    · simp [Option.map_map, Function.comp_def]
    · rfl
  · rfl

theorem parts?_minus :
    parts? ('-' :: cs) = (parts? cs).map fun p => { p with negative := true } := by
  unfold parts?
  rw [hsign]
  simp only [splitSign]
  split
  · split_ifs
    · rfl
    · exact tail?_negative ⟨false, _, _, _⟩ _
  · split_ifs
    · rfl
    · exact tail?_negative ⟨false, _, _, _⟩ _

end Unsigned

/-- A minus sign makes no number of a text that is none. -/
theorem number?_minus {cs : List Char} (h : number? cs = none) : number? ('-' :: cs) = none := by
  rcases splitSign_cases cs with hsign | ⟨sign, rest, rfl, rfl | rfl⟩
  · unfold number? hexadecimal? decimal? at h ⊢
    rw [hexParts?_minus hsign, parts?_minus hsign]
    cases hhex : hexParts? cs with
    | none => simp_all
    | some r =>
      obtain ⟨negative, n⟩ := r
      by_cases hn : n < Nat.pow 2 63
      · simp [hhex, hn] at h
      · simp_all [if_neg hn]
  · rfl
  · rfl

end Literal

namespace Converter

/-- A text that denotes itself is no reserved word and no number, since no reserved word denotes a
string. -/
theorem of_literal_eq_string {k : String} (h : literal k = .string k) :
    reserved.lookup k = none ∧ Literal.number? k.toList = none := by
  unfold literal at h
  dsimp only at h
  split at h
  · next v hv =>
    have hall : ∀ e ∈ reserved, e.2.text? = none := by decide
    obtain ⟨before, after, hsplit, -⟩ := List.lookup_eq_some_iff.mp hv
    have hnone := hall (unquote k, v) (by rw [hsplit]; simp)
    rw [h] at hnone
    cases hnone
  · next hnone =>
    split at h
    · cases h
    · next hnumber =>
      rw [Value.string.inj h] at hnone hnumber
      exact ⟨hnone, hnumber⟩

/-- A minus sign makes no reserved word of a text that is none: only `-Infinity` has the sign, and
without it it is a reserved word as well. -/
theorem reserved_minus {k : String} (h : reserved.lookup k = none) :
    reserved.lookup ("-" ++ k) = none := by
  rw [List.lookup_eq_none_iff] at h ⊢
  intro e he
  rw [bne_iff_ne]
  intro heq
  have hlist : '-' :: k.toList = e.1.toList := by rw [← heq]; simp
  have hall : ∀ e ∈ reserved, e.1.toList.head? = some '-' →
      ∃ d ∈ reserved, d.1.toList = e.1.toList.tail := by decide
  obtain ⟨d, hd, htail⟩ := hall e he (by rw [← hlist]; rfl)
  rw [← hlist, List.tail_cons, String.toList_inj] at htail
  simpa [htail] using h d hd

/-- A sign in front of a text that denotes itself makes another one. -/
theorem literal_minus {k : String} (h : literal k = .string k) :
    literal ("-" ++ k) = .string ("-" ++ k) := by
  obtain ⟨hreserved, hnumber⟩ := of_literal_eq_string h
  have hlist : ("-" ++ k).toList = '-' :: k.toList := by simp
  have hunquote : unquote ("-" ++ k) = "-" ++ k := by
    unfold unquote
    rw [hlist]
    rfl
  simp only [literal, hunquote, reserved_minus hreserved, hlist, Literal.number?_minus hnumber]

end Converter

/-- The word of a descending key is read as the key with its sign. -/
theorem Registry.convert_descending {k : String} (h : TextStyle.isPlain k) :
    builtin.convert "auto" ("-" ++ ({} : TextStyle).string k) = .ok (.string ("-" ++ k)) := by
  have hencode : "-" ++ ({} : TextStyle).string k = Percent.encode ("-" ++ k) := by
    rw [TextStyle.string, if_pos h]
    change "-" ++ Percent.encode k = _
    rw [← String.toList_inj]
    simp only [String.toList_append, Percent.toList_encode, List.flatMap_append]
    rfl
  rw [hencode, convert_of_notMem (Percent.colon_notMem_encode _), Percent.decode_encode,
    Converter.literal_minus (literal_of_isPlain h).2]

/-! ## The clauses of the text -/

/-- Words as they are read. -/
def Node.ofWords (ws : List String) : List Node :=
  (ws.map Node.word).map (Node.mapValues Value.reread)

/-- Words that were written for values are read as them. -/
theorem Node.ofWords_map {α : Type} {text : α → String} {value : α → Value} {as : List α}
    (h : ∀ a ∈ as, Registry.builtin.convert "auto" (text a) = .ok (value a)) :
    Node.ofWords (as.map text) = as.map fun a => .value (value a) := by
  rw [Node.ofWords, List.map_map, List.map_map]
  refine List.map_congr_left fun a ha => ?_
  have hread : (Value.host ⟨text a, .verbatim⟩).reread = value a := Value.reread_of_convert (h a ha)
  simp [Node.word, hread]

theorem Node.filterMap_path?_strings {α : Type} (key : α → String) (as : List α) :
    (as.map fun a => Node.value (.string (key a))).filterMap Node.path? = as.map key := by
  rw [List.filterMap_map]
  exact List.filterMap_eq_map_iff_forall_eq_some.mpr fun _ _ => rfl

namespace Query

/-- The clauses of the text of a query as they are read. -/
def rewritten (q : Query) : List Clause := q.written.map fun c => ⟨c.1, Node.ofWords c.2⟩

variable {q : Query}

/-- The clauses with some names are those of the parts with these names that have words. -/
theorem rewritten_filter (q : Query) (names : List String) :
    (q.rewritten.filter fun c => names.contains c.name) =
      ((q.parts.filter fun c => names.contains c.1).filter fun c => !c.2.isEmpty).map
        fun c => ⟨c.1, Node.ofWords c.2⟩ := by
  rw [rewritten, List.filter_map, written, List.filter_filter, List.filter_filter]
  congr 2
  funext c
  exact Bool.and_comm _ _

/-- The fields with a flag. -/
def flagged (q : Query) (included : Bool) : List (String × Bool) :=
  q.fields.filter (·.2 == included)

theorem mem_flagged {included : Bool} {e : String × Bool} :
    e ∈ q.flagged included ↔ e ∈ q.fields ∧ e.2 = included := by
  rw [flagged, List.mem_filter, beq_iff_eq]

/-- All fields are included or excluded. -/
theorem perm_flagged (q : Query) : (q.flagged true ++ q.flagged false).Perm q.fields := by
  have hnot : (fun e : String × Bool => e.2 == false) = fun e => !(e.2 == true) := by
    funext e
    cases e.2 <;> rfl
  rw [flagged, flagged, hnot]
  exact List.filter_append_perm _ q.fields

theorem ofWords_fields (q : Query) (included : Bool) :
    Node.ofWords (({} : TextStyle).fields q included) =
      (q.flagged included).map fun e => .value (.string e.1) :=
  Node.ofWords_map fun e _ => Registry.convert_string e.1

/-- What the clause of the fields with a flag does, if no key of these was there before. -/
theorem fields_project_ofWords (q r : Query) (included : Bool) (start : List (String × Bool))
    (hstart : (if !included && isIdOnly (Node.ofWords (({} : TextStyle).fields q included))
      then r.fields else []) = start)
    (hnodup : ((start ++ q.flagged included).map Prod.fst).Nodup) :
    (r.project included (Node.ofWords (({} : TextStyle).fields q included))).fields =
      start ++ q.flagged included := by
  have hentries : ((Node.ofWords (({} : TextStyle).fields q included)).filterMap Node.path?).map
      (fun k => (k, included)) = q.flagged included := by
    rw [ofWords_fields, Node.filterMap_path?_strings, List.map_map]
    refine (List.map_congr_left fun e he => ?_).trans (List.map_id _)
    exact Prod.ext rfl (mem_flagged.mp he).2.symm
  rw [fields_project, hentries, hstart]
  exact Entries.foldl_upsert_of_nodup hnodup

/-- The only field that is excluded beside included ones is `_id`. -/
theorem Consistent.flagged_eq (h : q.Consistent) (htrue : q.flagged true ≠ [])
    (hfalse : q.flagged false ≠ []) : q.flagged false = [("_id", false)] := by
  have hid : ∀ d ∈ q.flagged false, d = ("_id", false) := by
    intro d hd
    obtain ⟨hd, hflag⟩ := mem_flagged.mp hd
    rcases h.flags with hall | hid
    · obtain ⟨e, he⟩ := List.exists_mem_of_ne_nil _ htrue
      obtain ⟨he, hincluded⟩ := mem_flagged.mp he
      simp [hall e he] at hincluded
    · exact Prod.ext (hid d hd hflag) hflag
  have hnodup : ((q.flagged false).map Prod.fst).Nodup :=
    h.fields_nodup.sublist (List.filter_sublist.map Prod.fst)
  generalize q.flagged false = excluded at hfalse hid hnodup
  match excluded with
  | [] => exact absurd rfl hfalse
  | [d] => rw [hid d (by simp)]
  | c :: d :: rest =>
    rw [hid c (by simp), hid d (by simp)] at hnodup
    simp at hnodup

/-- **The fields are read back**, the included ones first. -/
theorem fields_rewritten (h : q.Consistent) (t : Term) :
    (ofClauses t (q.rewritten.filter fun c => ["select", "exclude"].contains c.name)).fields =
      q.flagged true ++ q.flagged false := by
  have hparts : (q.parts.filter fun c => ["select", "exclude"].contains c.1) =
      [("select", ({} : TextStyle).fields q true), ("exclude", ({} : TextStyle).fields q false)] :=
    rfl
  have hempty : ∀ included, (({} : TextStyle).fields q included).isEmpty =
      (q.flagged included).isEmpty := fun included => List.isEmpty_map
  have hnodup : ((q.flagged true ++ q.flagged false).map Prod.fst).Nodup :=
    (q.perm_flagged.map Prod.fst).nodup_iff.mpr h.fields_nodup
  rw [rewritten_filter, hparts, List.filter_cons, List.filter_cons, List.filter_nil]
  simp only [hempty]
  by_cases htrue : q.flagged true = []
  · -- Nothing is there when the excluded fields are read, so they may replace it or not.
    rw [htrue] at hnodup ⊢
    by_cases hfalse : q.flagged false = []
    · rw [hfalse]
      rfl
    · have hexclude := fields_project_ofWords q { selector := t } false []
        (by split_ifs <;> rfl) hnodup
      rw [if_neg (by simp), if_pos (by simpa using hfalse)]
      exact hexclude
  · have hselect : (({ selector := t } : Query).project true
        (Node.ofWords (({} : TextStyle).fields q true))).fields = q.flagged true :=
      fields_project_ofWords q { selector := t } true [] rfl
        (List.Nodup.of_append_left (by rwa [List.map_append] at hnodup))
    by_cases hfalse : q.flagged false = []
    · rw [hfalse, List.append_nil, if_pos (by simpa using htrue), if_neg (by simp)]
      exact hselect
    · -- Both are written, so the second one adds `_id` to the first.
      have hid := h.flagged_eq htrue hfalse
      rw [if_pos (by simpa using htrue), if_pos (by simpa using hfalse)]
      refine fields_project_ofWords q _ false _ ?_ hnodup
      rw [ofWords_fields, hid]
      exact hselect

theorem ofWords_integerTexts (is : List Int64) :
    Node.ofWords (is.map fun i => integerText i.toInt) =
      is.map fun i => .value (.number (.int i)) :=
  Node.ofWords_map fun i _ => Registry.convert_integerText i

theorem limitOf_int {i : Int64} (h : i = -1 ∨ 1 ≤ i) :
    limitOf (some (.value (.number (.int i)))) = i := by
  change (if 1 ≤ i then i else -1) = i
  split_ifs with hi
  · rfl
  · exact (h.resolve_right hi).symm

theorem toInt_toInt64 {n : UInt64} (h : n.toNat < 2 ^ 63) : n.toInt64.toInt = n.toNat := by
  have hcond := n.toInt64.toBitVec.toInt_eq_toNat_cond
  change n.toInt64.toInt = if 2 * n.toNat < 2 ^ 64 then (n.toNat : Int) else _ at hcond
  rw [hcond, if_pos (by omega)]

/-- A number of skipped results is taken as it stands, if it fits a signed integer. -/
theorem skipOf_int {n : UInt64} (h : n.toNat < 2 ^ 63) :
    skipOf (some (.value (.number (.int n.toInt64)))) = n := by
  have hnonneg : 0 ≤ n.toInt64 := by
    rw [Int64.le_iff_toInt_le, toInt_toInt64 h]
    exact Int.natCast_nonneg _
  change (if 0 ≤ n.toInt64 then n.toInt64.toUInt64 else 0) = n
  rw [if_pos hnonneg]
  simp

/-- **The limit and the number of skipped results are read back.** -/
theorem window_rewritten (h : q.Consistent) (t : Term) :
    (ofClauses t (q.rewritten.filter fun c => ["limit"].contains c.name)).window = q.window := by
  have hparts : (q.parts.filter fun c => ["limit"].contains c.1) =
      [("limit", TextStyle.paging q)] := rfl
  rw [rewritten_filter, hparts, TextStyle.paging]
  split_ifs with hnone hskip
  · exact Prod.ext hnone.1.symm hnone.2.symm
  · have hwords : Node.ofWords [integerText q.limit.toInt] = [.value (.number (.int q.limit))] :=
      ofWords_integerTexts [q.limit]
    change (page { selector := t } (Node.ofWords [integerText q.limit.toInt])).window = q.window
    rw [hwords]
    exact Prod.ext (limitOf_int h.limit) hskip.symm
  · have hwords : Node.ofWords [integerText q.limit.toInt, integerText q.skip.toNat] =
        [.value (.number (.int q.limit)), .value (.number (.int q.skip.toInt64))] := by
      rw [← toInt_toInt64 h.skip]
      exact ofWords_integerTexts [q.limit, q.skip.toInt64]
    change (page { selector := t } (Node.ofWords
      [integerText q.limit.toInt, integerText q.skip.toNat])).window = q.window
    rw [hwords]
    exact Prod.ext (limitOf_int h.limit) (skipOf_int h.skip)

/-- What a sort key has to be for its text to be read back: a sign in front of an ascending one
would be its direction, and there is no tag after the sign of a descending one. -/
structure IsSortable (e : String × SortOrder) : Prop where
  unsigned : e.2 = .ascending → e.1.toList.head? ≠ some '+' ∧ e.1.toList.head? ≠ some '-'
  isPlain : e.2 = .descending → TextStyle.isPlain e.1

/-- The path that a sort key is written as. -/
def sortPath (e : String × SortOrder) : String := if e.2 < 0 then "-" ++ e.1 else e.1

/-- The path of a key says what the key is, unless a sign of an ascending key is taken for its
direction. -/
theorem sortKey_sortPath_iff {e : String × SortOrder}
    (horder : e.2 = .ascending ∨ e.2 = .descending) : sortKey (sortPath e) = e ↔
    (e.2 = .ascending → e.1.toList.head? ≠ some '+' ∧ e.1.toList.head? ≠ some '-') := by
  obtain ⟨k, order⟩ := e
  rcases horder with rfl | rfl
  · change sortKey k = _ ↔ _
    unfold sortKey
    split
    · next heq => simp [heq, SortOrder.ascending_ne_descending.symm]
    · next rest heq =>
      have hne : String.ofList rest ≠ k := by
        rintro rfl
        simpa using congrArg List.length heq
      simp [heq, hne]
    · next hminus hplus =>
      refine iff_of_true rfl fun _ => ⟨fun hhead => ?_, fun hhead => ?_⟩
      · obtain ⟨rest, hrest⟩ := List.head?_eq_some_iff.mp hhead
        exact hplus rest hrest
      · obtain ⟨rest, hrest⟩ := List.head?_eq_some_iff.mp hhead
        exact hminus rest hrest
  · have hlist : ("-" ++ k).toList = '-' :: k.toList := by simp
    change sortKey ("-" ++ k) = _ ↔ _
    simp [sortKey, hlist, SortOrder.ascending_ne_descending.symm]

/-- The word of a sort key is read as its path. -/
theorem convert_sortKey {e : String × SortOrder} (h : e.2 < 0 → TextStyle.isPlain e.1) :
    Registry.builtin.convert "auto" (({} : TextStyle).sortKey e) = .ok (.string (sortPath e)) := by
  unfold TextStyle.sortKey sortPath
  split_ifs with horder
  · exact Registry.convert_descending (h horder)
  · exact Registry.convert_string e.1

/-- The sort order that is read: what the paths say that the keys are written as. -/
theorem sort_rewritten_eq (hplain : ∀ e ∈ q.sort, e.2 < 0 → TextStyle.isPlain e.1) (t : Term) :
    (ofClauses t (q.rewritten.filter fun c => ["sort"].contains c.name)).sort =
      ((q.sort.map sortPath).map sortKey).foldl (fun s k => Entries.upsert s k.1 k.2) [] := by
  have hparts : (q.parts.filter fun c => ["sort"].contains c.1) =
      [("sort", q.sort.map ({} : TextStyle).sortKey)] := rfl
  rw [rewritten_filter, hparts, List.filter_cons, List.filter_nil]
  by_cases hempty : q.sort = []
  · rw [hempty]
    rfl
  · rw [if_pos (by simpa using hempty)]
    change (sortBy { selector := t } (Node.ofWords (q.sort.map ({} : TextStyle).sortKey))).sort = _
    rw [Node.ofWords_map fun e he => convert_sortKey (hplain e he), sortBy,
      Node.filterMap_path?_strings]

theorem Consistent.isPlain_of_neg (h : q.Consistent) (hsort : ∀ e ∈ q.sort, IsSortable e) :
    ∀ e ∈ q.sort, e.2 < 0 → TextStyle.isPlain e.1 := fun e he horder =>
  (hsort e he).isPlain ((h.order_neg_iff he).mp horder)

/-- **The sort order is read back.** -/
theorem sort_rewritten (h : q.Consistent) (hsort : ∀ e ∈ q.sort, IsSortable e) (t : Term) :
    (ofClauses t (q.rewritten.filter fun c => ["sort"].contains c.name)).sort = q.sort := by
  have hkeys : (q.sort.map sortPath).map sortKey = q.sort := by
    rw [List.map_map]
    exact (List.map_congr_left fun e he =>
      (sortKey_sortPath_iff (h.orders e he)).mpr (hsort e he).unsigned).trans (List.map_id _)
  rw [sort_rewritten_eq (h.isPlain_of_neg hsort), hkeys]
  exact Entries.foldl_upsert_of_nodup (by simpa using h.sort_nodup)

end Query

/-! ## Reading the clauses back -/

/-- A clause with other values in its arguments. -/
def Clause.mapValues (f : Value → Value) (c : Clause) : Clause :=
  ⟨c.name, c.args.map (Node.mapValues f)⟩

/-- A clause with its values read again. -/
def Clause.reread (c : Clause) : Clause := c.mapValues Value.reread

namespace Node

variable {names : List String} {f : Value → Value}

theorem termsIn_map {g : Node → Node} {k : Clause → Clause} {ns : List Node}
    (h : ∀ n ∈ ns, (g n).terms = n.terms.map k) : termsIn (ns.map g) = (termsIn ns).map k := by
  induction ns with
  | nil => rfl
  | cons n ns ih =>
    obtain ⟨hn, hns⟩ := List.forall_mem_cons.mp h
    rw [List.map_cons, termsIn, termsIn, hn, ih hns, List.map_append]

/-- Other values change no term of a tree but for its arguments. -/
theorem terms_mapValues (n : Node) : (n.mapValues f).terms = n.terms.map (Clause.mapValues f) := by
  induction n with
  | term name args ih =>
    rw [mapValues_term]
    cases name with
    | none => exact termsIn_map ih
    | some name =>
      rw [terms, terms, termsIn_map ih, List.map_cons]
      rfl
  | list items ih =>
    rw [mapValues_list]
    exact termsIn_map ih
  | value v =>
    rw [mapValues_value]
    rfl

theorem clausesIn_map_mapValues (ns : List Node) :
    clausesIn names (ns.map (mapValues f)) = (clausesIn names ns).map (Clause.mapValues f) := by
  rw [clausesIn, termsIn_map fun n _ => terms_mapValues n, List.filter_map]
  rfl

theorem clausesIn_words (ws : List String) : clausesIn names (ws.map word) = [] := by
  induction ws with
  | nil => rfl
  | cons w ws ih => rw [List.map_cons, clausesIn_cons, ih]; rfl

theorem exists_of_mapValues_eq_term {n : Node} {f : Value → Value} {name : Option String}
    {ms : List Node} (h : n.mapValues f = .term name ms) : ∃ args, n = .term name args := by
  cases n with
  | term m args =>
    rw [Node.mapValues_term] at h
    cases h
    exact ⟨args, rfl⟩
  | list items =>
    rw [Node.mapValues_list] at h
    cases h
  | value v =>
    rw [Node.mapValues_value] at h
    cases h

/-- Of more names fewer can be taken. -/
theorem filter_clausesIn {all : List String} (h : names ⊆ all) (ns : List Node) :
    (clausesIn all ns).filter (fun c => names.contains c.name) = clausesIn names ns := by
  rw [clausesIn, List.filter_filter]
  refine List.filter_congr fun c _ => ?_
  by_cases hc : c.name ∈ names
  · simp [hc, h hc]
  · simp [hc]

/-- Without clauses of some names there are none of fewer names. -/
theorem clausesIn_eq_nil {all : List String} {ns : List Node} (h : clausesIn all ns = [])
    (hnames : names ⊆ all) : clausesIn names ns = [] := by
  rw [← filter_clausesIn hnames, h, List.filter_nil]

end Node

namespace Query

variable {q : Query} {names : List String}

/-- The clauses that are written have words in them and no clauses. -/
theorem clausesIn_written (q : Query) :
    Node.clausesIn names (q.written.map Node.clause) =
      (q.written.filter fun c => names.contains c.1).map fun c => ⟨c.1, c.2.map Node.word⟩ := by
  induction q.written with
  | nil => rfl
  | cons c cs ih =>
    rw [List.map_cons, Node.clausesIn_cons, Node.clause, Node.clausesIn_term,
      Node.clausesIn_words, ih, List.filter_cons]
    split_ifs <;> rfl

theorem members_of_isNested (h : q.selector.isNested) : q.members = q.selector.args := by
  obtain ⟨inner, hargs⟩ := Term.isNested_iff.mp h
  rw [members, hargs]
  rfl

/-- The clauses that are written in the body are those of the members. -/
theorem clausesIn_body (q : Query) (hand : andName ∉ names) (hor : orName ∉ names) :
    Node.clausesIn names q.body = Node.clausesIn names q.members := by
  unfold body
  split_ifs with hname hnested
  · rw [Term.toNode, Term.name_of_isNamed hname, Node.clausesIn_term_of_notMem hand,
      members_of_isNested hnested]
  · rfl
  · rw [Node.clausesIn_term_of_notMem hor]

/-- The clauses of the outline: those that are written, and those inside of the members. -/
theorem clausesIn_outline (q : Query) (hand : andName ∉ names) (hor : orName ∉ names) :
    Node.clausesIn names q.outline.args =
      Node.clausesIn names (q.written.map Node.clause) ++ Node.clausesIn names q.members := by
  unfold outline
  split_ifs with hgroup
  · rw [Term.and, Node.clausesIn_append, q.clausesIn_body hand hor]
  · obtain ⟨-, hwritten⟩ : q.selector.isNamed andName = false ∧ q.written = [] := by
      simpa using hgroup
    rw [hwritten]
    rfl

theorem nodup_written (q : Query) : (q.written.map Prod.fst).Nodup := by
  have hparts : (q.parts.map Prod.fst).Nodup := by
    change ["select", "exclude", "sort", "limit"].Nodup
    decide
  exact hparts.sublist (List.filter_sublist.map Prod.fst)

/-- The clauses of the outline as they are read: the rewritten ones, and then those inside of the
members. -/
theorem clausesIn_outline_reread (q : Query) (hand : andName ∉ names) (hor : orName ∉ names) :
    Node.clausesIn names (q.outline.args.map (Node.mapValues Value.reread)) =
      (q.rewritten.filter fun c => names.contains c.name) ++
        (Node.clausesIn names q.members).map Clause.reread := by
  rw [Node.clausesIn_map_mapValues, q.clausesIn_outline hand hor, List.map_append,
    clausesIn_written, List.map_map, rewritten, List.filter_map]
  rfl

/-- The selector of the query that is read from the text. -/
theorem IsParsed.selector_of_canonical (hq : q.IsParsed) (hplain : q.HasPlainNames) {q' : Query}
    (h' : parseQuery q.canonical = .ok q') :
    q'.selector = Parser.rootTerm q.outline.name
      (q.outline.args.map (Node.mapValues Value.reread)) := by
  obtain ⟨t, hparse, rfl⟩ := parseQuery_eq_ok_iff.mp h'
  rw [selector_ofClauses, ((hq.parse_canonical_iff hplain).mp hparse).2]

theorem outline_name (q : Query) :
    q.outline.name = some andName ∨ q.outline.name = some orName := by
  unfold outline
  split_ifs
  · exact .inl rfl
  · exact .inr rfl

/-- **A part of a query is read from the clauses of the text**: the rewritten ones, then those
inside of the members, and of each name the last one. -/
theorem IsParsed.part_of_canonical (hq : q.IsParsed) (hplain : q.HasPlainNames) {q' : Query}
    (h' : parseQuery q.canonical = .ok q') {α : Type} {part : Query → α} (hpart : IsPart part names)
    (hnames : names ⊆ Dialect.queryClauses)
    (hdefault : ∀ s, part { selector := s } = part {}) :
    part q' = part (ofClauses (.and []) (latestBy Clause.name
      ((q.rewritten.filter fun c => names.contains c.name) ++
        (Node.clausesIn names q.members).map Clause.reread))) := by
  have hand : andName ∉ names := fun hmem => absurd (hnames hmem) (by decide)
  have hor : orName ∉ names := fun hmem => absurd (hnames hmem) (by decide)
  have hselector := hq.selector_of_canonical hplain h'
  obtain ⟨t', -, rfl⟩ := parseQuery_eq_ok_iff.mp h'
  rw [selector_ofClauses] at hselector
  have hroot : ∀ m, q.outline.name = some m → m ∉ names := by
    rintro m hm
    rcases q.outline_name with hname | hname <;> cases hname.symm.trans hm
    · exact hand
    · exact hor
  rw [hpart.ofClauses t' (.and []) (hdefault t'), Term.lastClauses, filter_latestBy names.contains,
    Node.filter_clausesIn hnames, hselector, Parser.clausesIn_rootTerm hand hroot,
    q.clausesIn_outline_reread hand hor]

theorem nodup_rewritten (q : Query) (names : List String) :
    ((q.rewritten.filter fun c => names.contains c.name).map Clause.name).Nodup := by
  have hmap : q.rewritten.map Clause.name = q.written.map Prod.fst := by
    rw [rewritten, List.map_map]
    rfl
  exact (hmap ▸ q.nodup_written).sublist (List.filter_sublist.map Clause.name)

section Canonical

variable (hq : q.IsParsed) (hplain : q.HasPlainNames) {q' : Query}
  (h' : parseQuery q.canonical = .ok q')

include hq hplain h'

/-- Without clauses inside of the members only the rewritten ones are read. -/
theorem IsParsed.part_of_flat {α : Type} {part : Query → α} (hpart : IsPart part names)
    (hnames : names ⊆ Dialect.queryClauses) (hdefault : ∀ s, part { selector := s } = part {})
    (hflat : Node.clausesIn names q.members = []) :
    part q' = part (ofClauses (.and []) (q.rewritten.filter fun c => names.contains c.name)) := by
  rw [hq.part_of_canonical hplain h' hpart hnames hdefault, hflat, List.map_nil, List.append_nil,
    latestBy_of_nodup (q.nodup_rewritten names)]

/-- The last clause inside of the members is the last one that is read. -/
theorem IsParsed.part_of_nested {α : Type} {part : Query → α} (hpart : IsPart part names)
    (hnames : names ⊆ Dialect.queryClauses) (hdefault : ∀ s, part { selector := s } = part {})
    {c : Clause} (hc : (Node.clausesIn names q.members).getLast? = some c) :
    ∃ r : Query, part q' = part (r.applyClause c.reread) := by
  obtain ⟨front, hfront⟩ := List.getLast?_eq_some_iff.mp hc
  rw [hq.part_of_canonical hplain h' hpart hnames hdefault, hfront, List.map_append,
    List.map_singleton, ← List.append_assoc, latestBy_concat, ofClauses, List.foldl_concat]
  exact ⟨_, rfl⟩

/-- The fields are read back if no projection is inside of the members, the included ones first. -/
theorem IsParsed.fields_of_flat (hflat : Node.clausesIn ["select", "exclude"] q.members = []) :
    q'.fields = q.flagged true ++ q.flagged false :=
  (hq.part_of_flat hplain h' isPart_fields (by decide) (fun _ => rfl) hflat).trans
    (fields_rewritten hq.consistent _)

/-- The sort keys are read back if no `sort` is inside of the members. -/
theorem IsParsed.sort_of_flat (hflat : Node.clausesIn ["sort"] q.members = [])
    (hsort : ∀ e ∈ q.sort, IsSortable e) : q'.sort = q.sort :=
  (hq.part_of_flat hplain h' isPart_sort (by decide) (fun _ => rfl) hflat).trans
    (sort_rewritten hq.consistent hsort _)

/-- A path has the flag that it had, though the order of the fields may change. -/
theorem IsParsed.field?_of_flat (hflat : Node.clausesIn ["select", "exclude"] q.members = [])
    (path : String) : q'.field? path = q.field? path := by
  rw [field?, hq.fields_of_flat hplain h' hflat]
  refine Entries.lookup_eq_of_perm ?_ q.perm_flagged path
  exact (q.perm_flagged.map Prod.fst).nodup_iff.mpr hq.consistent.fields_nodup

/-- The window is read back if no `limit` is inside of the members. -/
theorem IsParsed.window_of_flat (hflat : Node.clausesIn ["limit"] q.members = []) :
    q'.window = q.window :=
  (hq.part_of_flat hplain h' isPart_window (by decide) (fun _ => rfl) hflat).trans
    (window_rewritten hq.consistent _)

end Canonical

theorem name_of_getLast?_clausesIn {ns : List Node} {c : Clause}
    (h : (Node.clausesIn names ns).getLast? = some c) : c.name ∈ names := by
  have hmem := List.mem_of_getLast? h
  simpa using (List.mem_filter.mp hmem).2

/-- A clause that sets the fields anew does so whatever was there. -/
theorem fields_applyClause {c : Clause} (hname : c.name ∈ ["select", "exclude"])
    (hanew : c.name = "exclude" → ¬ isIdOnly c.args) (q r : Query) :
    (q.applyClause c).fields = (r.applyClause c).fields := by
  rcases List.mem_pair.mp hname with hname | hname
  · simp [applyClause, applyClause?, hname, project]
  · simp [applyClause, applyClause?, hname, project, hanew hname]

theorem window_applyClause {c : Clause} (hname : c.name = "limit") (q r : Query) :
    (q.applyClause c).window = (r.applyClause c).window := by
  simp [applyClause, applyClause?, hname, page, window]

/-- **Projection and paging are read back from the text of a query**, each of them if no clause of
its kind is inside of the members of the selector.  Otherwise the last one that is there decides
alone, but for an `exclude(_id)` that only adds to what is selected. -/
theorem clauses_of_parseQuery_canonical {text : String} {q q' : Query}
    (h : parseQuery text = .ok q) (hplain : q.HasPlainNames)
    (h' : parseQuery q.canonical = .ok q') :
    (Node.clausesIn ["select", "exclude"] q.members = [] →
      ∀ path, q'.field? path = q.field? path) ∧
    (Node.clausesIn ["limit"] q.members = [] → q'.limit = q.limit ∧ q'.skip = q.skip) ∧
    (∀ c, (Node.clausesIn ["select", "exclude"] q.members).getLast? = some c →
      (c.name = "exclude" → ¬ isIdOnly c.reread.args) →
      q'.fields = (applyClause {} c.reread).fields) ∧
    ∀ c, (Node.clausesIn ["limit"] q.members).getLast? = some c →
      q'.limit = (applyClause {} c.reread).limit ∧ q'.skip = (applyClause {} c.reread).skip := by
  have hq := isParsed_of_parseQuery h
  refine ⟨hq.field?_of_flat hplain h', fun hflat => ?_, fun c hc hanew => ?_, fun c hc => ?_⟩
  · exact Prod.mk.inj (hq.window_of_flat hplain h' hflat)
  · obtain ⟨r, hr⟩ := hq.part_of_nested hplain h' isPart_fields (by decide) (fun _ => rfl) hc
    have hname : c.reread.name ∈ ["select", "exclude"] := (name_of_getLast?_clausesIn hc :)
    exact hr.trans (fields_applyClause hname hanew r {})
  · obtain ⟨r, hr⟩ := hq.part_of_nested hplain h' isPart_window (by decide) (fun _ => rfl) hc
    have hname : c.reread.name ∈ ["limit"] := (name_of_getLast?_clausesIn hc :)
    exact Prod.mk.inj (hr.trans (window_applyClause (List.mem_singleton.mp hname) r {}))

/-- A `select` inside of another term is not moved, and takes the place of the one that counted. -/
theorem clauses_of_parseQuery_canonical_nested :
    ∃ q q', parseQuery "x(select(a))&select(b)&limit(5)" = .ok q ∧
      parseQuery q.canonical = .ok q' ∧ q.fields = [("b", true)] ∧ q'.fields = [("a", true)] ∧
      q'.limit = 5 := by
  have hparse : parseQuery "x(select(a))&select(b)&limit(5)" = .ok
      { selector := Term.and [
          .term (some "x") [.term (some "select") [.value (.string "a")]],
          .term (some "select") [.value (.string "b")],
          .term (some "limit") [.value (.number (.int 5))]],
        fields := [("b", true)], limit := 5 } := by
    with_unfolding_all rfl
  obtain ⟨q', h'⟩ : ∃ q', parseQuery "select(b)&limit(5)&x(select(a))" = .ok q' :=
    ⟨_, by with_unfolding_all rfl⟩
  obtain ⟨-, hlimit, hselect, -⟩ :=
    clauses_of_parseQuery_canonical hparse (hasPlainNames_of_all (by decide)) h'
  exact ⟨_, q', hparse, h', rfl, hselect _ rfl (by decide), (hlimit rfl).1⟩

/-! ## Reading a query back -/

theorem isStandard_queries : Parser.queries.IsStandard := ⟨rfl, rfl⟩

/-- The words of clauses are accepted. -/
theorem converts_of_mem_parts (hplain : ∀ e ∈ q.sort, e.2 < 0 → TextStyle.isPlain e.1)
    {c : String × List String} (hc : c ∈ q.parts) {w : String} (hw : w ∈ c.2) :
    Parser.queries.Converts w := by
  have hall : q.AllKeys fun _ => True := ⟨fun _ _ => trivial, fun _ _ => trivial⟩
  rcases word_cases hall hc hw with ⟨k, -, rfl⟩ | ⟨e, he, -, horder, rfl⟩ | ⟨n, rfl⟩
  · exact isStandard_queries.converts (Registry.convert_string k)
  · exact isStandard_queries.converts (Registry.convert_descending (hplain e he horder))
  · exact isStandard_queries.converts (Registry.convert_of_notMem fun hcolon =>
      absurd (Number.isDecimalChar_integerText n ':' hcolon) (by decide))

theorem leaves_body (q : Query) : q.body.flatMap Node.leaves = q.members.flatMap Node.leaves := by
  unfold body
  split_ifs with hand hnested
  · simp [Term.toNode, members_of_isNested hnested]
  · rfl
  · simp

/-- A value of the outline is a word of a clause or a value of a member. -/
theorem mem_leaves_outline {v : Value} (h : v ∈ q.outline.toNode.leaves) :
    (∃ c ∈ q.written, ∃ w ∈ c.2, v = .host ⟨w, .verbatim⟩) ∨ v ∈ q.members.flatMap Node.leaves := by
  unfold outline at h
  rw [Term.toNode, Node.leaves_term] at h
  split_ifs at h
  · change v ∈ (q.written.map Node.clause ++ q.body).flatMap Node.leaves at h
    rw [List.flatMap_append, leaves_body] at h
    refine (List.mem_append.mp h).imp_left fun h => ?_
    obtain ⟨n, hn, hv⟩ := List.mem_flatMap.mp h
    obtain ⟨c, hc, rfl⟩ := List.mem_map.mp hn
    rw [Node.clause, Node.leaves_term] at hv
    obtain ⟨m, hm, hv⟩ := List.mem_flatMap.mp hv
    obtain ⟨w, hw, rfl⟩ := List.mem_map.mp hm
    exact ⟨c, hc, w, hw, List.mem_singleton.mp hv⟩
  · exact .inr h

/-- The text of a query is accepted, if all its values and sort keys can be read.  The words of a
clause were written to be read, and the values of the members were read before. -/
theorem IsParsed.exists_parseQuery_canonical (hq : q.IsParsed) (hplain : q.HasPlainNames)
    (htimely : ∀ n ∈ q.members, n.allValues Value.isTimely)
    (hsort : ∀ e ∈ q.sort, IsSortable e) : ∃ q', parseQuery q.canonical = .ok q' := by
  refine ⟨_, parseQuery_eq_ok_iff.mpr ⟨_, (hq.parse_canonical_iff hplain).mpr ⟨fun v hv => ?_, rfl⟩,
    rfl⟩⟩
  rcases mem_leaves_outline hv with ⟨c, hc, w, hw, rfl⟩ | hv
  · exact converts_of_mem_parts (hq.consistent.isPlain_of_neg hsort) (List.mem_filter.mp hc).1 hw
  · obtain ⟨n, hn, hv⟩ := List.mem_flatMap.mp hv
    exact isStandard_queries.converts_canonical (Node.of_mem_leaves (hq.all_members n hn) hv)
      (Node.of_mem_leaves (htimely n hn) hv)

theorem isClause_mapValues (n : Node) (f : Value → Value) :
    TextStyle.isClause (n.mapValues f) = TextStyle.isClause n := by
  cases n with
  | term name args => cases name <;> simp [TextStyle.isClause]
  | list items => simp [TextStyle.isClause]
  | value v => simp [TextStyle.isClause]

/-- The members of the text of a conjunction, if it is not collapsed. -/
theorem members_of_selector_eq {q' : Query} {ms : List Node}
    (hms : ∀ m ∈ ms, TextStyle.isClause m = false) (hargs : q'.selector.args =
      (q.written.map Node.clause).map (Node.mapValues Value.reread) ++ ms) : q'.members = ms := by
  have hclauses : ∀ m ∈ (q.written.map Node.clause).map (Node.mapValues Value.reread),
      TextStyle.isClause m := by
    intro m hm
    obtain ⟨n, hn, rfl⟩ := List.mem_map.mp hm
    obtain ⟨c, hc, rfl⟩ := List.mem_map.mp hn
    rw [isClause_mapValues]
    simpa [TextStyle.isClause, Node.clause, isClauseName] using (mem_written hc).1
  rw [members, hargs, List.filter_append, List.filter_eq_nil_iff.mpr (by simpa using hclauses),
    List.filter_eq_self.mpr (by simpa using hms), List.nil_append]

/-- The selector that is read is a conjunction of the clauses and what follows them, if that is not
a single conjunction. -/
theorem IsParsed.selector_of_conjunction (hq : q.IsParsed) (hplain : q.HasPlainNames) {q' : Query}
    (h' : parseQuery q.canonical = .ok q')
    (hgroup : q.selector.isNamed andName || !q.written.isEmpty)
    (hsingle : q.written = [] → ∀ inner, q.body ≠ [.term (some andName) inner]) :
    q'.selector = Term.and ((q.written.map Node.clause).map (Node.mapValues Value.reread) ++
      q.body.map (Node.mapValues Value.reread)) := by
  rw [hq.selector_of_canonical hplain h', outline, if_pos hgroup, Term.and, List.map_append]
  refine Parser.rootTerm_conjunction rfl fun inner hargs => ?_
  rcases hwritten : q.written with _ | ⟨c, cs⟩
  · rw [hwritten, List.map_nil, List.map_nil, List.nil_append] at hargs
    obtain ⟨n, hn, hterm⟩ := List.map_eq_singleton_iff.mp hargs
    obtain ⟨args, rfl⟩ := Node.exists_of_mapValues_eq_term hterm
    exact hsingle hwritten args hn
  · -- A clause is no conjunction.
    rw [hwritten, List.map_cons, List.map_cons, List.cons_append] at hargs
    have hhead := (List.cons.inj hargs).1
    rw [Node.clause, Node.mapValues_term] at hhead
    have hname : c.1 = andName := Option.some.inj (Node.term.inj hhead).1
    have hclause := (mem_written (q := q) (c := c) (by simp [hwritten])).1
    rw [hname] at hclause
    exact absurd hclause (by decide)

theorem isClause_of_mem_members {n : Node} (h : n ∈ q.members) : TextStyle.isClause n = false := by
  simpa using (List.mem_filter.mp h).2

/-- **A query is read back from its text.**  Let the clauses of a conjunction be at its root only,
so that there are none inside of its other members, and let these not be a single conjunction, which
would be collapsed.  Then the limit, the number of skipped results, the sort order and the fields
are the same, and the other members are equal. -/
theorem parseQuery_canonical {text : String} {q : Query} (h : parseQuery text = .ok q)
    (hand : q.selector.isNamed andName)
    (hflat : Node.clausesIn Dialect.queryClauses q.members = [])
    (hsingle : ∀ inner, q.members ≠ [.term (some andName) inner])
    (hplain : q.HasPlainNames) (htimely : q.selector.toNode.allValues Value.isTimely)
    (hsort : ∀ e ∈ q.sort, IsSortable e) :
    ∃ q', parseQuery q.canonical = .ok q' ∧ q'.limit = q.limit ∧ q'.skip = q.skip ∧
      q'.sort = q.sort ∧ (∀ path, q'.field? path = q.field? path) ∧
      q'.selector.isNamed andName ∧ Node.eqvList q'.members q.members := by
  have hq := isParsed_of_parseQuery h
  have htimely : ∀ n ∈ q.members, n.allValues Value.isTimely := fun n hn =>
    Node.allValues_term.mp htimely n (List.mem_filter.mp hn).1
  obtain ⟨q', h'⟩ := hq.exists_parseQuery_canonical hplain htimely hsort
  have hfields := hq.field?_of_flat hplain h' (Node.clausesIn_eq_nil hflat (by decide))
  have hsorted := hq.sort_of_flat hplain h' (Node.clausesIn_eq_nil hflat (by decide)) hsort
  have hwindow := hq.window_of_flat hplain h' (Node.clausesIn_eq_nil hflat (by decide))
  obtain ⟨hlimit, hskip⟩ := Prod.mk.inj hwindow
  have hbody : q.body = q.members := by
    rw [body, if_pos hand, if_neg]
    intro hnested
    obtain ⟨inner, hargs⟩ := Term.isNested_iff.mp hnested
    exact hsingle inner (members_of_isNested hnested ▸ hargs)
  have hselector := hq.selector_of_conjunction hplain h' (by simp [hand])
    fun _ inner => hbody ▸ hsingle inner
  rw [hbody] at hselector
  have hmembers : q'.members = q.members.map (Node.mapValues Value.reread) := by
    refine members_of_selector_eq (fun m hm => ?_) (congrArg Term.args hselector)
    obtain ⟨n, hn, rfl⟩ := List.mem_map.mp hm
    rw [isClause_mapValues, isClause_of_mem_members hn]
  refine ⟨q', h', hlimit, hskip, hsorted, hfields, ?_, ?_⟩
  · rw [hselector]
    rfl
  · rw [hmembers, Node.eqvList_iff, List.forall₂_map_left_iff, List.forall₂_same]
    exact fun n hn => (readsBack_node isStandard_queries (hq.all_members n hn) (htimely n hn)).eqv

/-- Clauses before and after the other members, a field that is excluded beside an included one, and
sort keys of both directions. -/
theorem parseQuery_canonical_clauses :
    ∃ q, parseQuery "a=1&limit(10,5)&(b|c<2)&select(d)&sort(-e,f)&exclude(_id)" = .ok q ∧
      ∃ q', parseQuery q.canonical = .ok q' ∧ q'.limit = q.limit ∧ q'.skip = q.skip ∧
        q'.sort = q.sort ∧ (∀ path, q'.field? path = q.field? path) ∧
        q'.selector.isNamed andName ∧ Node.eqvList q'.members q.members := by
  have hparse : parseQuery "a=1&limit(10,5)&(b|c<2)&select(d)&sort(-e,f)&exclude(_id)" = .ok
      { selector := Term.and [
          .term (some "eq") [.value (.string "a"), .value (.number (.int 1))],
          .term (some "limit") [.value (.number (.int 10)), .value (.number (.int 5))],
          .term (some "or") [.value (.string "b"),
            .term (some "lt") [.value (.string "c"), .value (.number (.int 2))]],
          .term (some "select") [.value (.string "d")],
          .term (some "sort") [.value (.string "-e"), .value (.string "f")],
          .term (some "exclude") [.value (.string "_id")]],
        fields := [("d", true), ("_id", false)],
        sort := [("e", .descending), ("f", .ascending)], limit := 10, skip := 5 } := by
    with_unfolding_all rfl
  have hsort : ∀ e ∈ [("e", SortOrder.descending), ("f", .ascending)], IsSortable e := by
    simp only [List.forall_mem_cons, List.not_mem_nil, false_implies, implies_true, and_true]
    exact ⟨⟨by decide, by decide⟩, ⟨by decide, by decide⟩⟩
  have htwo : ∀ {ms : List Node}, ms.length = 2 → ∀ inner, ms ≠ [.term (some andName) inner] := by
    rintro _ hlength inner rfl
    cases hlength
  exact ⟨_, hparse, parseQuery_canonical hparse rfl rfl (htwo rfl)
    (hasPlainNames_of_all (by decide)) (by decide) hsort⟩

end Query

end ResourceQuery
