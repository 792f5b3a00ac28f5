import ResourceQuery.Proofs.Query.RoundTrip

/-!
# The text of a query is written again

The query that is read from the text of a query has clauses at the front of its selector, and then
what was written out of the selector before.  So its own text is the same, but for two forms of the
root that depend on how many members there are beside the clauses:

* A disjunction beside clauses is one member more, `(a|)` with a sign at the end if it has a single
  member.  When the text is read it is a term inside of a conjunction, and such a term is written by
  its name, `or(a)`.
* A single conjunction is written as `(a&b)` if there were clauses that say nothing beside it, since
  these are arguments of the selector still.  When the text is read it is the root, and its members
  are written without parentheses.

## Main definitions

* `Query.Unsettled`: the two forms

## Main results

* `Value.reread_eq_self`: exact values are read as themselves
* `Query.canonical_canonical_iff`: texts are fixed points, but for the two forms
-/

namespace ResourceQuery

/-! ## Exact values -/

/-- **Exact values are read as themselves.** -/
theorem Value.reread_eq_self {v : Value} (hv : v.isReadable) (hexact : v.isExact) :
    v.reread = v :=
  reread_of_convert (Registry.convert_canonical hv hexact)

theorem Node.mapValues_eq_self {f : Value → Value} {n : Node} (h : ∀ v ∈ n.leaves, f v = v) :
    n.mapValues f = n := by
  have hmembers : ∀ ns : List Node, (∀ m ∈ ns, m.mapValues f = m) →
      ns.map (mapValues f) = ns := fun ns hns =>
    (List.map_congr_left hns).trans (List.map_id ns)
  induction n with
  | term name args ih =>
    rw [leaves_term] at h
    rw [mapValues_term, hmembers args fun m hm =>
      ih m hm fun v hv => h v (List.mem_flatMap_of_mem hm hv)]
  | list items ih =>
    rw [leaves_list] at h
    rw [mapValues_list, hmembers items fun m hm =>
      ih m hm fun v hv => h v (List.mem_flatMap_of_mem hm hv)]
  | value v => rw [mapValues_value, h v (by simp)]

/-! ## Two texts of a group -/

theorem intercalate_append_singleton_inj {sep : String} {as : List String} {x y : String} :
    String.intercalate sep (as ++ [x]) = String.intercalate sep (as ++ [y]) ↔ x = y := by
  refine ⟨fun h => ?_, by rintro rfl; rfl⟩
  rw [← String.toList_inj] at h ⊢
  simp only [String.toList_intercalate, List.map_append, List.map_singleton] at h
  induction as with
  | nil => simpa using h
  | cons a as ih =>
    cases as with
    | nil => simpa [List.intercalate_cons_cons] using h
    | cons b as =>
      simp only [List.map_cons, List.cons_append, List.intercalate_cons_cons, List.append_assoc,
        List.append_cancel_left_eq] at h ih
      exact ih h

/-- A conjunction inside of a tree is longer than at the root. -/
theorem application_andName_ne (texts : List String) :
    TextStyle.application andName texts ≠ String.intercalate "&" texts := by
  intro h
  match texts with
  | [] => exact absurd h (by decide)
  | [text] =>
    have happ : TextStyle.application andName [text] =
        andName ++ TextStyle.parenthesized "," [text] := rfl
    have hlength := congrArg (List.length ∘ String.toList) (happ.symm.trans h)
    simp [toList_parenthesized] at hlength
    omega
  | a :: b :: texts =>
    have happ : TextStyle.application andName (a :: b :: texts) =
        TextStyle.parenthesized "&" (a :: b :: texts) := rfl
    have hlength := congrArg (List.length ∘ String.toList) (happ.symm.trans h)
    simp only [Function.comp, toList_parenthesized, List.length_cons, List.length_append,
      List.length_nil] at hlength
    omega

/-- A disjunction inside of a tree is written as beside clauses, if it has two members. -/
theorem application_orName_eq_iff (texts : List String) :
    TextStyle.application orName texts = "(" ++ TextStyle.disjunction texts ++ ")" ↔
      2 ≤ texts.length := by
  match texts with
  | [] => decide
  | [text] =>
    have happ : TextStyle.application orName [text] =
        orName ++ TextStyle.parenthesized "," [text] := rfl
    refine iff_of_false (fun h => ?_) (by simp)
    have hhead := congrArg (List.head? ∘ String.toList) (happ.symm.trans h)
    simp [orName] at hhead
  | a :: b :: texts =>
    have happ : TextStyle.application orName (a :: b :: texts) =
        TextStyle.parenthesized "|" (a :: b :: texts) := rfl
    refine iff_of_true ?_ (by simp)
    rw [happ, TextStyle.disjunction, if_neg (by simp)]
    rfl

namespace Query

variable {q q' : Query}

/-! ## Reading a text and writing it again -/

/-- The text of the query is read as one with another text. -/
def Unsettled (q : Query) : Prop :=
  (q.selector.isNamed orName ∧ q.written ≠ [] ∧ q.members.length < 2) ∨
  (q.selector.isNamed andName ∧ q.written = [] ∧ q.selector.args ≠ q.members ∧
    ∃ inner, q.members = [.term (some andName) inner] ∧ ¬ (Term.and inner).isNested)

theorem parts_eq (hfields : q'.fields = q.flagged true ++ q.flagged false)
    (hsort : q'.sort = q.sort) (hwindow : q'.window = q.window) : q'.parts = q.parts := by
  have hflagged : ∀ included, q'.flagged included = q.flagged included := by
    intro included
    rw [flagged, hfields, List.filter_append]
    cases included <;> simp [flagged, List.filter_filter]
  obtain ⟨hlimit, hskip⟩ := Prod.mk.inj hwindow
  have htexts : ∀ included,
      ({} : TextStyle).fields q' included = ({} : TextStyle).fields q included := fun included =>
    congrArg (List.map fun e : String × Bool => ({} : TextStyle).string e.1) (hflagged included)
  simp only [parts, TextStyle.paging, htexts, hsort, hlimit, hskip]

theorem isClause_of_mem_body {n : Node} (h : n ∈ q.body) : TextStyle.isClause n = false := by
  unfold body at h
  split_ifs at h with hand hnested
  · obtain rfl := List.mem_singleton.mp h
    rw [Term.toNode, Term.name_of_isNamed hand]
    rfl
  · exact isClause_of_mem_members h
  · obtain rfl := List.mem_singleton.mp h
    rfl

theorem isClause_of_clausesIn {ns : List Node}
    (h : Node.clausesIn Dialect.queryClauses ns = []) {n : Node} (hn : n ∈ ns) :
    TextStyle.isClause n = false := by
  obtain ⟨front, back, rfl⟩ := List.append_of_mem hn
  rw [Node.clausesIn_append, Node.clausesIn_cons, List.append_eq_nil_iff,
    List.append_eq_nil_iff] at h
  cases n with
  | term name args =>
    cases name with
    | none => rfl
    | some name =>
      have hclauses := h.2.1
      rw [Node.clausesIn_term] at hclauses
      split_ifs at hclauses with hname
      simpa [TextStyle.isClause, isClauseName] using hname
  | list items => rfl
  | value v => rfl

section Settled

variable (hq : q.IsParsed) (hplain : q.HasPlainNames)
  (hflat : Node.clausesIn Dialect.queryClauses q.members = []) (hsort : q.sort = [])
  (hexact : ∀ n ∈ q.members, n.allValues Value.isExact)
  (h' : parseQuery q.canonical = .ok q')

include hq hexact in
theorem body_reread : q.body.map (Node.mapValues Value.reread) = q.body := by
  refine (List.map_congr_left fun n hn => Node.mapValues_eq_self fun v hv => ?_).trans
    (List.map_id q.body)
  have hmem : v ∈ q.members.flatMap Node.leaves :=
    q.leaves_body ▸ List.mem_flatMap_of_mem hn hv
  obtain ⟨m, hm, hv⟩ := List.mem_flatMap.mp hmem
  exact Value.reread_eq_self (Node.of_mem_leaves (hq.all_members m hm) hv)
    (Node.of_mem_leaves (hexact m hm) hv)

include hq hplain hflat hsort h'

/-- The clauses are written again. -/
theorem written_of_canonical : q'.written = q.written := by
  have hfields := hq.fields_of_flat hplain h' (Node.clausesIn_eq_nil hflat (by decide))
  have hsorted := hq.sort_of_flat hplain h' (Node.clausesIn_eq_nil hflat (by decide))
    (by simp [hsort])
  have hwindow := hq.window_of_flat hplain h' (Node.clausesIn_eq_nil hflat (by decide))
  rw [written, parts_eq hfields hsorted hwindow]
  rfl

include hexact

/-- What follows the clauses is written as a list of members, unless it was collapsed. -/
theorem canonical_of_conjunction (hgroup : q.selector.isNamed andName || !q.written.isEmpty)
    (hsingle : q.written = [] → ∀ inner, q.body ≠ [.term (some andName) inner]) :
    q'.canonical = String.intercalate "&"
      (({} : TextStyle).nodes (q.written.map Node.clause) ++ ({} : TextStyle).nodes q.body) := by
  have hwritten := written_of_canonical hq hplain hflat hsort h'
  have hselector := hq.selector_of_conjunction hplain h' hgroup hsingle
  rw [body_reread hq hexact] at hselector
  have hargs := congrArg Term.args hselector
  have hand : q'.selector.isNamed andName := by rw [hselector]; rfl
  have hmembers : q'.members = q.body :=
    members_of_selector_eq (fun _ => isClause_of_mem_body) hargs
  have hnested : ¬ q'.selector.isNested := by
    intro hnested
    obtain ⟨inner, hinner⟩ := Term.isNested_iff.mp hnested
    have hbody : q.body = [.term (some andName) inner] := by
      rw [← hmembers, members_of_isNested hnested, hinner]
    refine hsingle ?_ inner hbody
    rw [hinner, hbody, Term.and] at hargs
    simpa using hargs
  rw [(isParsed_of_parseQuery h').canonical_eq, if_pos (by simp [hand]), hwritten, bodyTexts,
    if_pos hand, body, if_pos hand, if_neg hnested, hmembers]

/-- A disjunction is written again, unless it stands beside clauses and has too few members. -/
theorem canonical_eq_iff_of_disjunction (hand : ¬ q.selector.isNamed andName) :
    q'.canonical = q.canonical ↔ ¬ (q.written ≠ [] ∧ q.members.length < 2) := by
  have hbody : q.body = [.term (some orName) q.members] := by rw [body, if_neg hand]
  by_cases hwritten : q.written = []
  · -- Without clauses the disjunction is the root again.
    refine iff_of_true ?_ (by simp [hwritten])
    have hmembers : q.members.map (Node.mapValues Value.reread) = q.members := by
      simpa [hbody] using body_reread hq hexact
    have hselector := hq.selector_of_canonical hplain h'
    rw [outline, if_neg (by simp [hand, hwritten]), hmembers, Parser.rootTerm_orName] at hselector
    have hand' : ¬ q'.selector.isNamed andName := by
      rw [hselector]
      simp [Term.isNamed, andName, orName]
    have hmembers' : q'.members = q.members := by
      rw [members, hselector]
      exact List.filter_eq_self.mpr fun n hn => by simp [isClause_of_mem_members hn]
    rw [(isParsed_of_parseQuery h').canonical_eq, hq.canonical_eq,
      written_of_canonical hq hplain hflat hsort h', if_neg (by simp [hand', hwritten]),
      if_neg (by simp [hand, hwritten]), hmembers']
  · -- Beside clauses it is a member of a conjunction when it is read.
    have hgroup : q.selector.isNamed andName || !q.written.isEmpty := by simp [hwritten]
    have hlength : (({} : TextStyle).nodes q.members).length = q.members.length := by
      rw [nodes_eq_map, List.length_map]
    rw [canonical_of_conjunction hq hplain hflat hsort hexact h' hgroup
      (fun hnil => absurd hnil hwritten), hq.canonical_eq, if_pos hgroup, bodyTexts, if_neg hand,
      hbody]
    change String.intercalate "&" (_ ++ [TextStyle.application orName _]) = _ ↔ _
    rw [intercalate_append_singleton_inj, application_orName_eq_iff, hlength]
    simp only [ne_eq, hwritten, not_false_eq_true, true_and, not_lt]

/-- What is written of a single conjunction that is the root when it is read. -/
theorem canonical_of_collapsed (hand : q.selector.isNamed andName) (hwritten : q.written = [])
    {inner : List Node} (hbody : q.body = [.term (some andName) inner]) :
    q'.canonical =
      if (Term.and inner).isNested then ({} : TextStyle).node (.term (some andName) inner)
      else String.intercalate "&" (({} : TextStyle).nodes inner) := by
  have hselector := hq.selector_of_canonical hplain h'
  rw [outline, if_pos (by simp [hand]), hwritten, List.map_nil, List.nil_append, Term.and,
    body_reread hq hexact, hbody, Parser.rootTerm_nested rfl] at hselector
  have hand' : q'.selector.isNamed andName := by rw [hselector]; rfl
  rw [(isParsed_of_parseQuery h').canonical_eq, if_pos (by simp [hand']),
    written_of_canonical hq hplain hflat hsort h', hwritten, List.map_nil]
  rw [bodyTexts, if_pos hand', body, if_pos hand', hselector]
  split_ifs with hnested
  · exact String.intercalate_singleton
  · -- There are no clauses inside of a member, so all of it is left.
    have hinner : Node.clausesIn Dialect.queryClauses inner = [] := by
      rw [← q.clausesIn_body (by decide) (by decide), hbody] at hflat
      rwa [Node.clausesIn_term_of_notMem (by decide)] at hflat
    have hmembers : q'.members = inner := by
      rw [members, hselector]
      exact List.filter_eq_self.mpr fun n hn => by simp [isClause_of_clausesIn hinner hn]
    rw [hmembers]
    rfl

/-- A conjunction is written again, unless it is collapsed to what is left of it. -/
theorem canonical_eq_iff_of_conjunction (hand : q.selector.isNamed andName) :
    q'.canonical = q.canonical ↔ ¬ (q.written = [] ∧ q.selector.args ≠ q.members ∧
      ∃ inner, q.members = [.term (some andName) inner] ∧ ¬ (Term.and inner).isNested) := by
  have hgroup : q.selector.isNamed andName || !q.written.isEmpty := by simp [hand]
  have hcanonical : q.canonical = String.intercalate "&"
      (({} : TextStyle).nodes (q.written.map Node.clause) ++ ({} : TextStyle).nodes q.body) := by
    rw [hq.canonical_eq, if_pos hgroup, bodyTexts, if_pos hand]
  have hbody : ¬ q.selector.isNested → q.body = q.members := fun hnested => by
    rw [body, if_pos hand, if_neg hnested]
  by_cases hcollapsed : q.written = [] ∧ ∃ inner, q.body = [.term (some andName) inner]
  · obtain ⟨hwritten, inner, hinner⟩ := hcollapsed
    have hone : q.canonical = ({} : TextStyle).node (.term (some andName) inner) := by
      rw [hcanonical, hwritten, hinner]
      exact String.intercalate_singleton
    rw [canonical_of_collapsed hq hplain hflat hsort hexact h' hand hwritten hinner, hone]
    split_ifs with hnested
    · -- Its only member is a conjunction too, so it is written around that one again.
      refine iff_of_true rfl ?_
      rintro ⟨-, hargs, inner', hmembers, hinner'⟩
      rw [hbody fun h => hargs (members_of_isNested h).symm, hmembers] at hinner
      cases hinner
      exact hinner' hnested
    · -- It loses its parentheses, and the selector had other arguments beside it.
      refine iff_of_false (application_andName_ne _).symm (not_not.mpr ?_)
      have hselector : ¬ q.selector.isNested := by
        intro h
        rw [body, if_pos hand, if_pos h] at hinner
        obtain ⟨-, rfl⟩ := Node.term.inj (List.cons.inj hinner).1
        exact hnested h
      have hmembers := (hbody hselector).symm.trans hinner
      refine ⟨hwritten, fun hargs => hselector ?_, inner, hmembers, hnested⟩
      exact Term.isNested_iff.mpr ⟨inner, hargs.trans hmembers⟩
  · have hsingle : q.written = [] → ∀ inner, q.body ≠ [.term (some andName) inner] :=
      fun hwritten inner hinner => hcollapsed ⟨hwritten, inner, hinner⟩
    refine iff_of_true ?_ ?_
    · rw [canonical_of_conjunction hq hplain hflat hsort hexact h' hgroup hsingle, hcanonical]
    · rintro ⟨hwritten, hargs, inner, hinner, -⟩
      refine hsingle hwritten inner ((hbody fun hnested => ?_).trans hinner)
      exact hargs (members_of_isNested hnested).symm

end Settled

/-- **Canonical text is a fixed point**, but for the unsettled queries.  If the clauses are at the
root only, without sort keys, and the values are neither doubles nor dates, then the text of a query
is accepted, and the query that is read has the same text unless it is one of these. -/
theorem canonical_canonical_iff {text : String} {q : Query} (h : parseQuery text = .ok q)
    (hplain : q.HasPlainNames) (hflat : Node.clausesIn Dialect.queryClauses q.members = [])
    (hsort : q.sort = []) (hexact : q.selector.toNode.allValues Value.isExact) :
    ∃ q', parseQuery q.canonical = .ok q' ∧ (q'.canonical = q.canonical ↔ ¬ q.Unsettled) := by
  have hq := isParsed_of_parseQuery h
  have hexact : ∀ n ∈ q.members, n.allValues Value.isExact := fun n hn =>
    Node.allValues_term.mp hexact n (List.mem_filter.mp hn).1
  obtain ⟨q', h'⟩ := hq.exists_parseQuery_canonical hplain
    (fun n hn => Node.all_mono (hexact n hn) fun v hv =>
      Value.isTimely_of_isExact (Node.of_mem_leaves (hexact n hn) hv)) (by simp [hsort])
  refine ⟨q', h', ?_⟩
  have hnotBoth : ¬ (q.selector.isNamed andName ∧ q.selector.isNamed orName) := by
    simp only [Term.isNamed, beq_iff_eq]
    rintro ⟨hand, hor⟩
    exact absurd (hand.symm.trans hor) (by decide)
  rcases hq.root with hand | hor
  · have hor : ¬ q.selector.isNamed orName := fun hor => hnotBoth ⟨hand, hor⟩
    rw [canonical_eq_iff_of_conjunction hq hplain hflat hsort hexact h' hand, Unsettled]
    simp [hand, hor]
  · have hand : ¬ q.selector.isNamed andName := fun hand => hnotBoth ⟨hand, hor⟩
    rw [canonical_eq_iff_of_disjunction hq hplain hflat hsort hexact h' hand, Unsettled]
    simp [hand, hor]

/-- A clause that says nothing stands beside a single conjunction: the text `(x&y)` is read as the
conjunction itself, and that is written as `x&y`. -/
theorem canonical_canonical_iff_collapsed :
    ∃ q q', parseQuery "select()&(x&y)" = .ok q ∧ q.canonical = "(x&y)" ∧
      parseQuery q.canonical = .ok q' ∧ q'.canonical ≠ q.canonical := by
  have hparse : parseQuery "select()&(x&y)" = .ok
      { selector := Term.and [
          .term (some "select") [],
          .term (some "and") [.value (.string "x"), .value (.string "y")]] } := by
    with_unfolding_all rfl
  obtain ⟨q', h', hiff⟩ := canonical_canonical_iff hparse (hasPlainNames_of_all (by decide)) rfl rfl
    (by decide)
  refine ⟨_, q', hparse, by decide, h', fun heq =>
    hiff.mp heq (.inr ⟨rfl, rfl, ?_, _, rfl, by decide⟩)⟩
  exact fun hargs => absurd (congrArg List.length hargs) (by decide)

end Query

end ResourceQuery
