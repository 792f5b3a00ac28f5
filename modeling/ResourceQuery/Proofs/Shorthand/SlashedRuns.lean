import Mathlib.Data.List.SplitBy
import ResourceQuery.Proofs.Shorthand.Context

/-!
# Slashed lists, run by run

The rule for slashed lists looks for a word, a slash and then anything that a run may hold, from
every place in the text.  What it does to the whole text is easier to say: the text is cut into
runs of word characters and slashes, each as long as it can be, and every run with a slash in it
becomes a list.  Since the rule goes from left to right, it meets each run at its first character
and takes it as a whole, wherever the slashes are.

## Main definitions

* `Shorthand.runs`: a text cut into its runs; any other character is a piece by itself
* `Shorthand.listed`: a piece, as a list if there is a slash in it

## Main results

* `Shorthand.slashedList_apply`: the rule rewrites the runs of a text, one by one
* `Shorthand.expandSlashes_runs`: so no slash is left, a second time changes nothing, and words
  with slashes between them become a list wherever they stand
-/

namespace ResourceQuery

namespace Shorthand

open Text

/-- Two neighbours that belong to the same run. -/
def joined (c d : Char) : Bool := isSlashedChar c && isSlashedChar d

/-- The longest runs of word characters and slashes in a text, with every other character by
itself. -/
def runs (cs : List Char) : List (List Char) := cs.splitBy joined

/-- A piece of text: with a slash in it, it is put in parentheses and its slashes become
commas. -/
def listed (piece : List Char) : List Char :=
  if '/' ∈ piece then '(' :: piece.map (fun c => if c = '/' then ',' else c) ++ [')'] else piece

variable {run rest : List Char}

/-! ## Cutting into runs -/

theorem runs_append {front back : List Char}
    (h : ∀ c ∈ front.getLast?, ∀ d ∈ back.head?, joined c d = false) :
    runs (front ++ back) = runs front ++ runs back :=
  List.splitBy_append h

theorem runs_of_isSlashedChar (hne : run ≠ []) (hrun : ∀ c ∈ run, isSlashedChar c) :
    runs run = [run] := by
  refine List.splitBy_of_isChain hne (List.Pairwise.isChain ?_)
  refine List.pairwise_of_forall_mem_list fun c hc d hd => ?_
  simp [joined, hrun c hc, hrun d hd]

/-- A run that cannot be made longer is a piece. -/
theorem runs_run (hne : run ≠ []) (hrun : ∀ c ∈ run, isSlashedChar c)
    (hrest : ∀ c ∈ rest.head?, isSlashedChar c = false) :
    runs (run ++ rest) = run :: runs rest := by
  rw [runs_append, runs_of_isSlashedChar hne hrun, List.singleton_append]
  intro c _ d hd
  simp [joined, hrest d hd]

/-- A character that is in no run is a piece. -/
theorem runs_other {c : Char} (hc : isSlashedChar c = false) (rest : List Char) :
    runs (c :: rest) = [c] :: runs rest := by
  change runs ([c] ++ rest) = runs [c] ++ runs rest
  refine runs_append fun d hd e _ => ?_
  obtain rfl : c = d := Option.some.inj hd
  simp [joined, hc]

/-! ## The rule on a run -/

/-- From the start of a run with slashes the rule takes all of it. -/
theorem slashedList?_run (hrun : ∀ c ∈ run, isSlashedChar c) (hslash : '/' ∈ run)
    (hrest : ∀ c ∈ rest.head?, isSlashedChar c = false) :
    slashedList? (run ++ rest) = some (listed run, rest) := by
  obtain ⟨word, after, rfl, hword⟩ := List.eq_append_cons_of_mem hslash
  obtain ⟨hfront, hback⟩ := List.forall_mem_append.mp hrun
  have hwordChar : ∀ c ∈ word, isWordChar c := by
    intro c hc
    have hne : c ≠ '/' := ne_of_mem_of_not_mem hc hword
    simpa [isSlashedChar, hne] using hfront c hc
  have hafter := (List.forall_mem_cons.mp hback).2
  have hends : EndsWord ('/' :: (after ++ rest)) := endsWord_cons.mpr (by decide)
  have hspan : (after ++ rest).takeWhile isSlashedChar = after ∧
      (after ++ rest).dropWhile isSlashedChar = rest := by
    rw [List.takeWhile_append_of_pos hafter, List.dropWhile_append_of_pos hafter]
    cases rest with
    | nil => simp
    | cons c rest => simp [hrest c rfl]
  rw [List.append_assoc, List.cons_append, slashedList?, dropWhile_word hwordChar hends,
    takeWhile_word hwordChar hends]
  simp only [hspan, listOfSlashed, listed, if_pos hslash]

theorem apply_run (hrun : ∀ c ∈ run, isSlashedChar c)
    (hrest : ∀ c ∈ rest.head?, isSlashedChar c = false) :
    slashedList.apply (run ++ rest) = listed run ++ slashedList.apply rest := by
  by_cases hslash : '/' ∈ run
  · exact slashedList.apply_of_some (slashedList?_run hrun hslash hrest)
  · rw [listed, if_neg hslash]
    change slashedList.applyIf true (run ++ rest) = run ++ slashedList.applyIf true rest
    exact expandSlashes_of_notMem hslash hrest

theorem apply_other {c : Char} (hc : isSlashedChar c = false) (rest : List Char) :
    slashedList.apply (c :: rest) = listed [c] ++ slashedList.apply rest := by
  have hword : isWordChar c = false := by
    simp only [isSlashedChar, Bool.or_eq_false_iff] at hc
    exact hc.1
  have hslash : c ≠ '/' := by
    rintro rfl
    exact absurd hc (by decide)
  have hnone : slashedList? (c :: rest) = none := by
    simp [slashedList?, List.dropWhile, hword, hslash]
  rw [slashedList.apply_of_none hnone, listed, if_neg (by simpa using hslash.symm),
    List.singleton_append]

/-- **The rule rewrites the runs of a text**, one by one, and copies the rest. -/
theorem slashedList_apply (cs : List Char) : slashedList.apply cs = (runs cs).flatMap listed := by
  induction hn : cs.length using Nat.strong_induction_on generalizing cs with
  | _ n ih =>
    cases cs with
    | nil => rw [slashedList.apply_nil]; rfl
    | cons c cs =>
      by_cases hc : isSlashedChar c
      · have hrun : ∀ d ∈ c :: cs.takeWhile isSlashedChar, isSlashedChar d :=
          List.forall_mem_cons.mpr ⟨hc, fun d hd => List.mem_takeWhile_imp hd⟩
        have hrest : ∀ d ∈ (cs.dropWhile isSlashedChar).head?, isSlashedChar d = false := by
          intro d hd
          have hhead := List.head?_dropWhile_not isSlashedChar cs
          rwa [Option.mem_def.mp hd] at hhead
        have hlt : (cs.dropWhile isSlashedChar).length < n := by
          have := (List.dropWhile_sublist (l := cs) isSlashedChar).length_le
          rw [← hn, List.length_cons]
          omega
        have hsplit :
            c :: cs = (c :: cs.takeWhile isSlashedChar) ++ cs.dropWhile isSlashedChar := by
          rw [List.cons_append, List.takeWhile_append_dropWhile]
        rw [hsplit, apply_run hrun hrest, runs_run (List.cons_ne_nil _ _) hrun hrest,
          List.flatMap_cons, ih _ hlt _ rfl]
      · have hc : isSlashedChar c = false := by simpa using hc
        rw [apply_other hc, runs_other hc, List.flatMap_cons, ih cs.length (by simp [← hn]) cs rfl]

/-! ## What follows for texts -/

theorem slash_notMem_listed (piece : List Char) : '/' ∉ listed piece := by
  unfold listed
  split_ifs with hslash
  · simp only [List.cons_append, List.mem_cons, List.mem_append, List.mem_map, List.not_mem_nil,
      or_false]
    rintro (h | ⟨c, -, hc⟩ | h)
    · exact absurd h (by decide)
    · split_ifs at hc with heq
      · exact absurd hc (by decide)
      · exact heq hc
    · exact absurd h (by decide)
  · exact hslash

theorem slash_notMem_apply (cs : List Char) : '/' ∉ slashedList.apply cs := by
  rw [slashedList_apply, List.mem_flatMap]
  rintro ⟨piece, -, hmem⟩
  exact slash_notMem_listed piece hmem

/-- A text without slashes is its own expansion. -/
theorem slashedList_apply_eq_self {cs : List Char} (h : '/' ∉ cs) : slashedList.apply cs = cs := by
  have hself : slashedList.applyIf true (cs ++ []) = cs ++ slashedList.applyIf true [] :=
    expandSlashes_of_notMem h (by simp)
  rwa [Rule.applyIf_nil, List.append_nil] at hself

theorem ne_slash_of_isWordChar {c : Char} (h : isWordChar c) : c ≠ '/' := by
  rintro rfl
  exact absurd h (by decide)

section Words

variable {words : List (List Char)} (h : ∀ word ∈ words, ∀ c ∈ word, isWordChar c)

include h

theorem isSlashedChar_intercalate : ∀ c ∈ ['/'].intercalate words, isSlashedChar c := by
  induction words with
  | nil => simp
  | cons word words ih =>
    obtain ⟨hword, hwords⟩ := List.forall_mem_cons.mp h
    have hslashed : ∀ c ∈ word, isSlashedChar c := fun c hc => by simp [isSlashedChar, hword c hc]
    cases words with
    | nil => simpa using hslashed
    | cons next words =>
      rw [List.intercalate_cons_cons, List.append_assoc, List.forall_mem_append,
        List.singleton_append, List.forall_mem_cons]
      exact ⟨hslashed, by decide, ih hwords⟩

/-- Words with slashes between them have commas between them, once the slashes become commas. -/
theorem map_intercalate_slash :
    (['/'].intercalate words).map (fun c => if c = '/' then ',' else c) =
      [','].intercalate words := by
  induction words with
  | nil => rfl
  | cons word words ih =>
    obtain ⟨hword, hwords⟩ := List.forall_mem_cons.mp h
    have hself : word.map (fun c => if c = '/' then ',' else c) = word := by
      conv_rhs => rw [← List.map_id word]
      exact List.map_congr_left fun c hc => if_neg (ne_slash_of_isWordChar (hword c hc))
    cases words with
    | nil => simpa using hself
    | cons next words =>
      rw [List.intercalate_cons_cons, List.intercalate_cons_cons, List.map_append, List.map_append,
        hself, ih hwords]
      rfl

/-- Words with slashes between them are a run, which becomes their list. -/
theorem apply_words (hlen : 2 ≤ words.length) {front back : List Char}
    (hfront : ∀ c ∈ front.getLast?, isSlashedChar c = false)
    (hback : ∀ c ∈ back.head?, isSlashedChar c = false) :
    slashedList.apply (front ++ (['/'].intercalate words ++ back)) =
      slashedList.apply front ++
        ('(' :: [','].intercalate words ++ [')'] ++ slashedList.apply back) := by
  have hslash : '/' ∈ ['/'].intercalate words := by
    obtain _ | ⟨word, _ | ⟨next, words⟩⟩ := words
    · simp at hlen
    · simp at hlen
    · simp [List.intercalate_cons_cons]
  have hruns : runs (front ++ (['/'].intercalate words ++ back)) =
      runs front ++ ['/'].intercalate words :: runs back := by
    rw [runs_append, runs_run (List.ne_nil_of_mem hslash) (isSlashedChar_intercalate h) hback]
    intro c hc d _
    simp [joined, hfront c hc]
  rw [slashedList_apply, hruns, List.flatMap_append, List.flatMap_cons, ← slashedList_apply,
    ← slashedList_apply, listed, if_pos hslash, map_intercalate_slash h]

end Words

/-- **Slashes are expanded run by run.**  So no slash is left, expanding again changes nothing, and
words with slashes between them become a list in every place where the run stops with them; the
words may be empty. -/
theorem expandSlashes_runs :
    (∀ text : String,
      expandSlashes text = String.ofList ((runs text.toList).flatMap listed) ∧
      '/' ∉ (expandSlashes text).toList ∧
      expandSlashes (expandSlashes text) = expandSlashes text) ∧
    ∀ (front back : String) (words : List String), 2 ≤ words.length →
      (∀ word ∈ words, ∀ c ∈ word.toList, isWordChar c) →
      (∀ c ∈ front.toList.getLast?, isSlashedChar c = false) →
      (∀ c ∈ back.toList.head?, isSlashedChar c = false) →
      expandSlashes (front ++ "/".intercalate words ++ back) =
        expandSlashes front ++ "(" ++ ",".intercalate words ++ ")" ++ expandSlashes back := by
  refine ⟨fun text => ⟨?_, ?_, ?_⟩, fun front back words hlen hwords hfront hback => ?_⟩
  · rw [expandSlashes, slashedList_apply]
  · rw [expandSlashes, String.toList_ofList]
    exact slash_notMem_apply text.toList
  · rw [expandSlashes, slashedList_apply_eq_self, String.ofList_toList]
    rw [expandSlashes, String.toList_ofList]
    exact slash_notMem_apply text.toList
  · have hchars : ∀ word ∈ words.map String.toList, ∀ c ∈ word, isWordChar c := by
      simpa using hwords
    have happly := apply_words hchars (by simpa using hlen) hfront hback
    rw [← String.toList_inj]
    simpa [expandSlashes, String.toList_intercalate] using happly

/-- Slashes at the ends of a run, two in a row, and a list next to punctuation. -/
theorem expandSlashes_runs_sort :
    expandSlashes ("sort(" ++ "/".intercalate ["", "a", "", "b"] ++ ",c/)") =
      "sort((,a,,b),(c,))" := by
  have hwords : ["", "a", "", "b"].all fun word => word.toList.all isWordChar := by decide
  rw [expandSlashes_runs.2 "sort(" ",c/)" ["", "a", "", "b"] (by decide)
    (fun word hword => List.all_eq_true.mp (List.all_eq_true.mp hwords word hword))
    (by rintro c ⟨⟩; rfl) (by rintro c ⟨⟩; rfl)]
  decide +kernel

end Shorthand

end ResourceQuery
