import Mathlib.Data.Nat.Init
import Mathlib.Order.Nat
import ResourceQuery.Pattern.Matching
import ResourceQuery.Proofs.Pattern.Search

/-!
# Globs and their patterns

A glob speaks of whole texts, and its pattern is searched for anywhere in a text.  The anchors of
the pattern bridge the two, except at an end where the glob has stars: there the pattern has neither
the stars nor the anchor.

The source of the pattern is read back construct by construct.  Each character of the glob becomes
one piece, whatever stands next to it, since special characters are escaped and no source of a
character starts with a question mark, which after a repetition would not be read as one.

## Main definitions

* `Pattern.GlobMatches`: the meaning of globs, on whole texts
* `Pattern.globPiece`: the piece that a character of a glob is read as
* `Regex.Row`: the meaning of pieces in a row

## Main results

* `Pattern.read?_ofGlob`: the pattern of a glob is read as the pieces of its characters
* `Pattern.row_globPieces`: these pieces span the stretches that the glob matches
* `Pattern.isMatch_ofGlob_iff`: the pattern is found exactly in the texts that the glob matches
-/

namespace ResourceQuery

/-! ## Letter case -/

namespace Text

/-- Foldings are between characters, and none is of an ASCII character. -/
theorem foldings_bounds : ∀ e ∈ foldings, 128 ≤ e.1 ∧
    (e.1 + e.2.1 * e.2.2.1 ≤ 0xD800 ∨ 0xE000 ≤ e.1 ∧ e.1 + e.2.1 * e.2.2.1 ≤ 0x110000) := by
  decide +kernel

theorem foldTo?_bounds {n m : ℕ} {e : ℕ × ℕ × ℕ × Int} (he : e ∈ foldings)
    (h : foldTo? n e = some m) : 128 ≤ n ∧ n.isValidChar := by
  obtain ⟨first, count, step, shift⟩ := e
  have hbounds := foldings_bounds _ he
  dsimp only [foldTo?] at h hbounds
  split_ifs at h with hn
  refine ⟨by omega, ?_⟩
  unfold Nat.isValidChar
  omega

/-- In ASCII the capital letters are folded, and nothing else. -/
theorem foldCode_of_lt {n : ℕ} (h : n < 128) :
    foldCode n = if 65 ≤ n ∧ n ≤ 90 then n + 32 else n := by
  have hnone : foldings.findSome? (foldTo? n) = none := by
    rw [List.findSome?_eq_none_iff]
    intro e he
    by_contra hne
    obtain ⟨m, hm⟩ := Option.ne_none_iff_exists'.mp hne
    have hn := (foldTo?_bounds he hm).1
    omega
  rw [foldCode, hnone, Option.getD_none]

/-- What case does to ASCII characters. -/
theorem ascii_cases : ∀ n < 128,
    Char.ofNat (if 65 ≤ n ∧ n ≤ 90 then n + 32 else n) = (Char.ofNat n).toLower ∧
      (Char.ofNat n).toLower.toNat < 128 ∧
      (Char.ofNat n).toLower.toLower = (Char.ofNat n).toLower ∧
      (Char.ofNat n).toLower.toUpper.toLower = (Char.ofNat n).toLower ∧
      (Char.ofNat n = (Char.ofNat n).toLower ∨ Char.ofNat n = (Char.ofNat n).toLower.toUpper) := by
  decide +kernel

/-- Among ASCII characters the variants of a character are those with the same lower case. -/
theorem contains_caseVariants_iff {c d : Char} (hc : c.toNat < 128) (hd : d.toNat < 128) :
    (caseVariants c).contains d = true ↔ c.toLower = d.toLower := by
  obtain ⟨hfold, hlow, hidem, hupper, -⟩ := ascii_cases _ hc
  obtain ⟨-, -, -, -, hself⟩ := ascii_cases _ hd
  rw [Char.ofNat_toNat] at hfold hlow hidem hupper hself
  have hfold : foldChar c = c.toLower := by rw [foldChar, foldCode_of_lt hc, hfold]
  have hstray : d ∉ (foldings.filterMap (foldFrom? c.toLower.toNat)).map Char.ofNat := by
    intro hmem
    obtain ⟨n, hn, rfl⟩ := List.mem_map.mp hmem
    obtain ⟨e, he, hfrom⟩ := List.mem_filterMap.mp hn
    obtain ⟨m, hto, hm⟩ := Option.bind_eq_some_iff.mp hfrom
    split_ifs at hm
    rw [Option.some.inj hm] at hto
    obtain ⟨hlarge, hvalid⟩ := foldTo?_bounds he hto
    have hn : (Char.ofNat n).toNat = n := by
      unfold Char.ofNat
      rw [dif_pos hvalid]
      unfold Char.ofNatAux Char.toNat
      simp
    omega
  rw [List.contains_iff_mem, caseVariants, hfold]
  simp only [if_pos hlow, List.mem_append, hstray, or_false, asciiVariants, List.mem_cons,
    List.not_mem_nil]
  constructor
  · rintro (rfl | rfl)
    · rw [hidem, hidem]
    · exact hupper.symm
  · intro h
    rw [hidem, h]
    exact hself

end Text

/-! ## Pieces in a row -/

namespace Regex

/-- The pieces lead from one place of the text to another, one after the other. -/
def Row (text : List Char) : List Pattern.Piece → ℕ → ℕ → Prop
  | [] => Eq
  | p :: ps => Relation.Comp (Spans text p.regex) (Row text ps)

/-- A row of pieces leads where its parts do, one after the other. -/
theorem row_append (text : List Char) (ps qs : List Pattern.Piece) :
    Row text (ps ++ qs) = Relation.Comp (Row text ps) (Row text qs) := by
  induction ps with
  | nil => exact Relation.eq_comp.symm
  | cons p ps ih => rw [List.cons_append, Row, ih, Row, Relation.comp_assoc]

end Regex

namespace Pattern

open Regex

namespace Piece

/-- A piece with others before it, which are given last first. -/
def following (q : Piece) (ps : List Piece) : Piece :=
  ps.foldl (fun later earlier => append earlier later) q

theorem following_cons (q p : Piece) (ps : List Piece) :
    following q (p :: ps) = following (append p q) ps := rfl

/-- A row of pieces differs from its last piece with the others before it at most in depth. -/
theorem concat_cons (q : Piece) (ps : List Piece) :
    (concat (q :: ps)).regex = (following q ps).regex ∧
      (concat (q :: ps)).depth ≤ (following q ps).depth + 1 ∧
      (concat (q :: ps)).weight = (following q ps).weight := by
  cases ps with
  | nil => exact ⟨rfl, Nat.le_succ _, rfl⟩
  | cons p ps => exact ⟨rfl, le_rfl, rfl⟩

theorem spans_following (text : List Char) (q : Piece) (ps : List Piece) :
    Spans text (following q ps).regex =
      Relation.Comp (Row text ps.reverse) (Spans text q.regex) := by
  induction ps generalizing q with
  | nil => exact Relation.eq_comp.symm
  | cons p ps ih =>
    rw [following_cons, ih, List.reverse_cons, row_append, Relation.comp_assoc, Row, Row,
      Relation.comp_eq]
    rfl

/-- **Pieces span what they span in a row.** -/
theorem spans_concat (text : List Char) (ps : List Piece) :
    Spans text (concat ps).regex = Row text ps.reverse := by
  cases ps with
  | nil => rfl
  | cons q ps =>
    rw [(concat_cons q ps).1, spans_following, List.reverse_cons, row_append, Row, Row,
      Relation.comp_eq]

theorem depth_following_le {d : ℕ} {q : Piece} {ps : List Piece} (hq : q.depth ≤ d)
    (h : ∀ p ∈ ps, p.depth ≤ d) : (following q ps).depth ≤ d := by
  induction ps generalizing q with
  | nil => exact hq
  | cons p ps ih =>
    rw [List.forall_mem_cons] at h
    exact ih (Nat.max_le.mpr ⟨h.1, hq⟩) h.2

theorem weight_following_le {w : ℕ} {q : Piece} {ps : List Piece} (h : ∀ p ∈ ps, p.weight ≤ w) :
    (following q ps).weight ≤ q.weight + w * ps.length := by
  induction ps generalizing q with
  | nil => exact le_rfl
  | cons p ps ih =>
    rw [List.forall_mem_cons] at h
    have hrest : (following (append p q) ps).weight ≤ p.weight + q.weight + w * ps.length := ih h.2
    rw [following_cons, List.length_cons, Nat.mul_succ]
    omega

/-- The size of a row of small pieces is linear in their number. -/
theorem concat_bounds {d w : ℕ} {ps : List Piece} (h : ∀ p ∈ ps, p.depth ≤ d ∧ p.weight ≤ w) :
    (concat ps).depth ≤ d + 1 ∧ (concat ps).weight ≤ w * ps.length := by
  cases ps with
  | nil => exact ⟨Nat.zero_le _, Nat.zero_le _⟩
  | cons q ps =>
    rw [List.forall_mem_cons] at h
    obtain ⟨-, hdepth, hweight⟩ := concat_cons q ps
    have hdepth' := depth_following_le h.1.1 fun p hp => (h.2 p hp).1
    have hweight' : (following q ps).weight ≤ q.weight + w * ps.length :=
      weight_following_le fun p hp => (h.2 p hp).2
    rw [List.length_cons, Nat.mul_succ]
    omega

end Piece

/-! ## Reading the pattern of a glob -/

/-- The mode of the patterns of globs. -/
def globMode : Mode := { ignoreCase := true }

/-- Any character but the end of a line. -/
def anyPiece : Piece := .ofSet ⟨(· != '\n'), 400, 0⟩

/-- The piece that a character of a glob is read as. -/
def globPiece (c : Char) : Piece :=
  if c = '*' then anyPiece.repeated .star
  else if c = '?' then anyPiece.repeated .optional
  else .ofChar globMode c

theorem dropLazyMark_eq_self {cs : List Char} (h : cs.head? ≠ some '?') : dropLazyMark cs = cs := by
  unfold dropLazyMark
  split
  · exact absurd rfl h
  · rfl

/-- No character of a glob is written with a `?` first, so none makes the repetition before it
lazy. -/
theorem head?_ofGlobChar (c : Char) (cs : List Char) : (ofGlobChar c ++ cs).head? ≠ some '?' := by
  unfold ofGlobChar
  split_ifs <;> simp_all

namespace Reader

variable {r : Reader} {rest : List Char}

/-- One construct of a source in which white space is not skipped. -/
theorem run?_cons {next : Reader} {c : Char} {rest' : List Char} (hmode : r.mode.spaced = false)
    (hstep : r.step? c rest = some (next, rest')) (hle : rest'.length ≤ rest.length) :
    r.run? (c :: rest) = next.run? rest' := by
  have hlt : rest'.length < (c :: rest).length := Nat.lt_succ_of_le hle
  rw [run?]
  simp only [Mode.skip, hmode, Bool.false_eq_true, if_false, hstep, if_pos hlt]

theorem dot?_globMode : dot? globMode = some anyPiece := by
  simp [dot?, globMode, anyPiece]

/-- A character that is not special stands for itself. -/
theorem step?_of_not_isSpecial {c : Char} (hstar : c ≠ '*') (hmark : c ≠ '?')
    (h : isSpecial c = false) : r.step? c rest = some (r.push (.ofChar r.mode c), rest) := by
  simp only [isSpecial, List.contains_eq_mem, decide_eq_false_iff_not, List.mem_cons,
    List.not_mem_nil, not_or] at h
  unfold step?
  split <;> simp_all

/-- **The source of a character is read as its piece, whatever follows it.** -/
theorem run?_ofGlobChar (hmode : r.mode = globMode) (c : Char) (hrest : rest.head? ≠ some '?') :
    r.run? (ofGlobChar c ++ rest) = (r.push (globPiece c)).run? rest := by
  have hspaced : r.mode.spaced = false := by rw [hmode]; rfl
  have hdot : ∀ rest, r.run? ('.' :: rest) = (r.push anyPiece).run? rest := fun rest =>
    run?_cons hspaced (by simp [step?, hmode, dot?_globMode]) le_rfl
  unfold ofGlobChar globPiece
  split_ifs with hstar hmark hspecial
  · rw [List.cons_append, hdot]
    refine run?_cons hspaced ?_ le_rfl
    simp [step?, repeatLast?, push, dropLazyMark_eq_self hrest, anyPiece, Piece.ofSet]
  · rw [List.cons_append, hdot]
    refine run?_cons hspaced ?_ le_rfl
    simp [step?, repeatLast?, push, dropLazyMark_eq_self hrest, anyPiece, Piece.ofSet]
  · have hescapable : isEscapable c := by
      have hall : ['\\', '^', '$', '.', '|', '+', '(', ')', '[', ']', '\x7b', '\x7d'].all
          isEscapable := by decide
      exact List.all_eq_true.mp hall c (List.contains_iff_mem.mp hspecial)
    refine run?_cons hspaced ?_ (Nat.le_succ _)
    simp [step?, escape?, hescapable, Piece.ofAtom, hmode]
  · rw [← hmode]
    exact run?_cons hspaced (step?_of_not_isSpecial hstar hmark (by simpa using hspecial)) le_rfl

theorem run?_flatMap_ofGlobChar (hmode : r.mode = globMode) (cs : List Char)
    (hrest : rest.head? ≠ some '?') :
    r.run? (cs.flatMap ofGlobChar ++ rest) =
      run? { r with items := (cs.map globPiece).reverse ++ r.items } rest := by
  induction cs generalizing r with
  | nil => rfl
  | cons c cs ih =>
    have hhead : (cs.flatMap ofGlobChar ++ rest).head? ≠ some '?' := by
      cases cs with
      | nil => exact hrest
      | cons d ds =>
        rw [List.flatMap_cons, List.append_assoc]
        exact head?_ofGlobChar d _
    have hpush : (r.push (globPiece c)).mode = globMode := hmode
    rw [List.flatMap_cons, List.append_assoc, run?_ofGlobChar hmode c hhead, ih hpush]
    simp [push]

end Reader

/-- The piece of the start of a pattern, unless the glob starts with a star. -/
def globStart (glob : List Char) : List Piece :=
  if glob.head? = some '*' then [] else [.ofLook Look.startOfText]

/-- The piece of the end of a pattern, unless the glob ends with a star. -/
def globFinish (glob : List Char) : List Piece :=
  if glob.getLast? = some '*' then [] else [.ofLook Look.endOfText]

/-- The pieces of the pattern of a glob, in order. -/
def globPieces (glob : List Char) : List Piece :=
  globStart glob ++ ((trimStars glob).map globPiece ++ globFinish glob)

/-- **The pattern of a glob is read as the pieces of its characters between its anchors.** -/
theorem read?_ofGlob (glob : String) :
    read? (ofGlob glob).mode (ofGlob glob).source.toList =
      some (Piece.concat (globPieces glob.toList).reverse) := by
  have hmode : (ofGlob glob).mode = globMode := by simp [Pattern.mode, ofGlob, globMode]
  have hend : ∀ items, Reader.run? { mode := globMode, items } [] =
      some { mode := globMode, items } := by
    intro items
    rw [Reader.run?]
    rfl
  have hstart : ∀ rest, Reader.run? { mode := globMode }
      ((if glob.toList.head? = some '*' then [] else ['^']) ++ rest) =
        Reader.run? { mode := globMode, items := globStart glob.toList } rest := by
    intro rest
    unfold globStart
    split_ifs
    · rfl
    · exact Reader.run?_cons rfl rfl le_rfl
  have hfinish : ∀ items, Reader.run? { mode := globMode, items }
      (if glob.toList.getLast? = some '*' then [] else ['$']) =
        some { mode := globMode, items := globFinish glob.toList ++ items } := by
    intro items
    unfold globFinish
    split_ifs
    · exact hend items
    · rw [Reader.run?_cons rfl rfl le_rfl]
      exact hend _
  have hmark : (if glob.toList.getLast? = some '*' then [] else ['$']).head? ≠ some '?' := by
    split_ifs <;> simp
  have hreverse : (globPieces glob.toList).reverse = globFinish glob.toList ++
      (((trimStars glob.toList).map globPiece).reverse ++ globStart glob.toList) := by
    unfold globPieces globStart globFinish
    split_ifs <;> simp
  rw [hmode, read?, ofGlob, String.toList_ofList, List.append_assoc, hstart,
    Reader.run?_flatMap_ofGlobChar rfl _ hmark, hfinish, hreverse]
  rfl

/-! ## Meaning of globs -/

/-- The whole of a text matches a glob. -/
inductive GlobMatches : List Char → List Char → Prop
  | nil : GlobMatches [] []
  | star (run : List Char) {glob text : List Char} (h : GlobMatches glob text) :
      GlobMatches ('*' :: glob) (run ++ text)
  | none {glob text : List Char} (h : GlobMatches glob text) : GlobMatches ('?' :: glob) text
  | one (d : Char) {glob text : List Char} (h : GlobMatches glob text) :
      GlobMatches ('?' :: glob) (d :: text)
  | char {c d : Char} {glob text : List Char} (hstar : c ≠ '*') (hmark : c ≠ '?')
      (hcase : c.toLower = d.toLower) (h : GlobMatches glob text) :
      GlobMatches (c :: glob) (d :: text)

namespace GlobMatches

theorem append {g g' t t' : List Char} (h : GlobMatches g t) (h' : GlobMatches g' t') :
    GlobMatches (g ++ g') (t ++ t') := by
  induction h with
  | nil => exact h'
  | star run _ ih => exact List.append_assoc run _ _ ▸ .star run ih
  | none _ ih => exact .none ih
  | one d _ ih => exact .one d ih
  | char hstar hmark hcase _ ih => exact .char hstar hmark hcase ih

/-- A glob in two parts matches the texts in two parts. -/
theorem append_iff {g g' t : List Char} :
    GlobMatches (g ++ g') t ↔ ∃ a b, t = a ++ b ∧ GlobMatches g a ∧ GlobMatches g' b := by
  constructor
  · intro h
    induction g generalizing t with
    | nil => exact ⟨[], t, rfl, .nil, h⟩
    | cons c g ih =>
      cases h with
      | star run h =>
        obtain ⟨a, b, rfl, ha, hb⟩ := ih h
        exact ⟨run ++ a, b, (List.append_assoc run a b).symm, .star run ha, hb⟩
      | none h =>
        obtain ⟨a, b, rfl, ha, hb⟩ := ih h
        exact ⟨a, b, rfl, .none ha, hb⟩
      | one d h =>
        obtain ⟨a, b, rfl, ha, hb⟩ := ih h
        exact ⟨d :: a, b, rfl, .one d ha, hb⟩
      | char hstar hmark hcase h =>
        obtain ⟨a, b, rfl, ha, hb⟩ := ih h
        exact ⟨_ :: a, b, rfl, .char hstar hmark hcase ha, hb⟩
  · rintro ⟨a, b, rfl, ha, hb⟩
    exact ha.append hb

theorem nil_iff {t : List Char} : GlobMatches [] t ↔ t = [] :=
  ⟨fun h => by cases h; rfl, fun h => h ▸ .nil⟩

theorem star_iff {t : List Char} : GlobMatches ['*'] t ↔ True :=
  iff_true_intro (List.append_nil t ▸ .star t .nil)

theorem mark_iff {t : List Char} : GlobMatches ['?'] t ↔ t = [] ∨ ∃ d, t = [d] := by
  constructor
  · intro h
    cases h with
    | none h => exact .inl (nil_iff.mp h)
    | one d h => exact .inr ⟨d, by rw [nil_iff.mp h]⟩
    | char _ hmark => exact absurd rfl hmark
  · rintro (rfl | ⟨d, rfl⟩)
    · exact .none .nil
    · exact .one d .nil

/-- A character matches itself in upper and lower case. -/
theorem char_iff {c : Char} {t : List Char} (hstar : c ≠ '*') (hmark : c ≠ '?') :
    GlobMatches [c] t ↔ ∃ d, t = [d] ∧ c.toLower = d.toLower := by
  constructor
  · intro h
    cases h with
    | star => exact absurd rfl hstar
    | none => exact absurd rfl hmark
    | one => exact absurd rfl hmark
    | char _ _ hcase h => exact ⟨_, by rw [nil_iff.mp h], hcase⟩
  · rintro ⟨d, rfl, hcase⟩
    exact .char hstar hmark hcase .nil

/-- Stars match everything, unless there are none. -/
theorem replicate_star_iff {n : ℕ} {t : List Char} :
    GlobMatches (List.replicate n '*') t ↔ (n = 0 → t = []) := by
  cases n with
  | zero => simp [nil_iff]
  | succ n =>
    have hnil : ∀ m, GlobMatches (List.replicate m '*') [] := by
      intro m
      induction m with
      | zero => exact .nil
      | succ m ih => exact .star [] ih
    have ht : GlobMatches (List.replicate (n + 1) '*') (t ++ []) := .star t (hnil n)
    simpa using ht

end GlobMatches

/-! ## Stars at the ends -/

theorem takeWhile_star (cs : List Char) :
    ∃ n, cs.takeWhile (· = '*') = List.replicate n '*' ∧ (cs.head? = some '*' ↔ n ≠ 0) := by
  refine ⟨(cs.takeWhile (· = '*')).length, List.eq_replicate_length.mpr fun c hc => ?_, ?_⟩
  · simpa using List.all_eq_true.mp List.all_takeWhile c hc
  · cases cs with
    | nil => simp
    | cons c cs => by_cases hc : c = '*' <;> simp [hc]

/-- A glob is made of stars, or stars stand around its middle, as many as its ends say. -/
theorem trimStars_cases (glob : List Char) :
    (∃ n, glob = List.replicate n '*' ∧ trimStars glob = []) ∨
      ∃ n k, glob = List.replicate n '*' ++ (trimStars glob ++ List.replicate k '*') ∧
        (glob.head? = some '*' ↔ n ≠ 0) ∧ (glob.getLast? = some '*' ↔ k ≠ 0) := by
  obtain ⟨n, hlead, hn⟩ := takeWhile_star glob
  have hglob : glob = List.replicate n '*' ++ glob.dropWhile (· = '*') := by
    rw [← hlead, List.takeWhile_append_dropWhile]
  unfold trimStars
  generalize glob.dropWhile (· = '*') = rest at hglob ⊢
  rcases List.eq_nil_or_concat rest with rfl | ⟨before, last, hrest⟩
  · exact .inl ⟨n, by rw [hglob, List.append_nil], rfl⟩
  · obtain ⟨k, htrail, hk⟩ := takeWhile_star rest.reverse
    have hsplit : rest = (rest.reverse.dropWhile (· = '*')).reverse ++ List.replicate k '*' := by
      have happend : rest.reverse =
          List.replicate k '*' ++ rest.reverse.dropWhile (· = '*') := by
        rw [← htrail, List.takeWhile_append_dropWhile]
      have := congrArg List.reverse happend
      simpa using this
    have hlast : glob.getLast? = rest.getLast? := by
      rw [hglob, hrest]
      simp
    refine .inr ⟨n, k, by rw [← hsplit, ← hglob], hn, ?_⟩
    rw [hlast, ← hk, List.head?_reverse]

theorem trimStars_sublist (glob : List Char) : (trimStars glob).Sublist glob := by
  have hrest : (trimStars glob).Sublist (glob.dropWhile (· = '*')).reverse.reverse :=
    List.reverse_sublist.mpr (List.dropWhile_sublist _)
  rw [List.reverse_reverse] at hrest
  exact hrest.trans (List.dropWhile_sublist _)

/-- Stars at the ends leave the text there open. -/
theorem globMatches_iff_trimStars {glob text : List Char} :
    GlobMatches glob text ↔ ∃ before middle after, text = before ++ (middle ++ after) ∧
      (glob.head? ≠ some '*' → before = []) ∧ (glob.getLast? ≠ some '*' → after = []) ∧
      GlobMatches (trimStars glob) middle := by
  rcases trimStars_cases glob with ⟨n, hglob, htrim⟩ | ⟨n, k, hglob, hhead, hlast⟩
  · rw [htrim, hglob, GlobMatches.replicate_star_iff]
    simp only [GlobMatches.nil_iff]
    cases n with
    | zero => simp
    | succ n =>
      refine iff_of_true (fun h => absurd h (Nat.succ_ne_zero n)) ⟨text, [], [], ?_, ?_, ?_, rfl⟩
      · simp
      · simp [List.replicate_succ]
      · simp
  · simp only [hhead, hlast, ne_eq, not_not]
    nth_rewrite 1 [hglob]
    simp only [GlobMatches.append_iff, GlobMatches.replicate_star_iff]
    constructor
    · rintro ⟨before, _, rfl, hbefore, middle, after, rfl, hmiddle, hafter⟩
      exact ⟨before, middle, after, rfl, hbefore, hafter, hmiddle⟩
    · rintro ⟨before, middle, after, rfl, hbefore, hafter, hmiddle⟩
      exact ⟨before, _, rfl, hbefore, middle, after, rfl, hmiddle, hafter⟩

/-! ## What the pieces span -/

/-- The stretch between two places of the text satisfies a predicate. -/
def Between (text : List Char) (P : List Char → Prop) (i j : ℕ) : Prop :=
  j ≤ text.length ∧ ∃ m, text.drop i = m ++ text.drop j ∧ P m

theorem between_congr {text : List Char} {P Q : List Char → Prop} (h : ∀ m, P m ↔ Q m) {i j : ℕ} :
    Between text P i j ↔ Between text Q i j :=
  and_congr_right fun _ => exists_congr fun m => and_congr_right fun _ => h m

section

variable {text : List Char} {i j : ℕ} (hi : i ≤ text.length)

include hi

theorem between_nil_iff : Between text (· = []) i j ↔ i = j := by
  constructor
  · rintro ⟨hj, _, h, rfl⟩
    have hlength := congrArg List.length h
    simp only [List.length_drop, List.nil_append] at hlength
    omega
  · rintro rfl
    exact ⟨hi, [], rfl, rfl⟩

/-- Stretches that meet are one stretch. -/
theorem comp_between {P Q : List Char → Prop} :
    (∃ k, Between text P i k ∧ Between text Q k j) ↔
      Between text (fun m => ∃ a b, m = a ++ b ∧ P a ∧ Q b) i j := by
  constructor
  · rintro ⟨k, ⟨-, a, ha, hP⟩, hj, b, hb, hQ⟩
    exact ⟨hj, a ++ b, by rw [ha, hb, List.append_assoc], a, b, rfl, hP, hQ⟩
  · rintro ⟨hj, _, h, a, b, rfl, hP, hQ⟩
    have hlength := congrArg List.length h
    simp only [List.length_drop, List.length_append] at hlength
    have hk : text.drop (i + a.length) = b ++ text.drop j := by
      rw [← List.drop_drop, h, List.append_assoc, List.drop_left]
    refine ⟨i + a.length, ⟨by omega, a, ?_, hP⟩, hj, b, hk, hQ⟩
    rw [hk, h, List.append_assoc]

theorem between_singleton_iff {P : Char → Prop} :
    Between text (fun m => ∃ d, m = [d] ∧ P d) i j ↔ j = i + 1 ∧ ∃ d, text[i]? = some d ∧ P d := by
  constructor
  · rintro ⟨hj, _, h, d, rfl, hP⟩
    have hlength := congrArg List.length h
    have hhead := congrArg List.head? h
    simp only [List.length_drop, List.length_append, List.length_singleton] at hlength
    rw [List.head?_drop, List.singleton_append, List.head?_cons] at hhead
    exact ⟨by omega, d, hhead, hP⟩
  · rintro ⟨rfl, d, hd, hP⟩
    obtain ⟨hlt, hget⟩ := List.getElem?_eq_some_iff.mp hd
    exact ⟨hlt, [d], by rw [List.drop_eq_getElem_cons hlt, hget, List.singleton_append], d, rfl, hP⟩

end

/-- A text that a dot can run over. -/
def IsAsciiLine (text : List Char) : Prop := ∀ c ∈ text, c.toNat < 128 ∧ c ≠ '\n'

section

variable {text : List Char} (htext : IsAsciiLine text) {i j : ℕ} (hi : i ≤ text.length)

include htext

/-- A dot spans one character of a text without line ends. -/
theorem spans_anyPiece : Spans text anyPiece.regex i j ↔ j = i + 1 ∧ i < text.length := by
  refine and_congr_right fun _ => ⟨?_, fun hlt => ⟨text[i], List.getElem?_eq_getElem hlt, ?_⟩⟩
  · rintro ⟨c, hc, -⟩
    exact (List.getElem?_eq_some_iff.mp hc).1
  · exact bne_iff_ne.mpr (htext _ (List.getElem_mem hlt)).2

include hi

/-- A star spans every stretch of a text without line ends. -/
theorem spans_star : Spans text (globPiece '*').regex i j ↔ i ≤ j ∧ j ≤ text.length := by
  have hstep : ∀ {i j}, Spans text anyPiece.regex i j ↔ j = i + 1 ∧ i < text.length :=
    spans_anyPiece htext
  change Relation.ReflTransGen (Spans text anyPiece.regex) i j ↔ _
  constructor
  · intro h
    induction h with
    | refl => exact ⟨le_rfl, hi⟩
    | tail _ h ih =>
      obtain ⟨rfl, hlt⟩ := hstep.mp h
      exact ⟨Nat.le_succ_of_le ih.1, hlt⟩
  · rintro ⟨hij, hj⟩
    induction j, hij using Nat.le_induction with
    | base => exact .refl
    | succ k _ ih => exact .tail (ih (Nat.le_of_lt hj)) (hstep.mpr ⟨rfl, hj⟩)

/-- **The piece of a character spans the stretches that the character matches.** -/
theorem spans_globPiece {c : Char} (hc : c.toNat < 128) :
    Spans text (globPiece c).regex i j ↔ Between text (GlobMatches [c]) i j := by
  by_cases hstar : c = '*'
  · subst hstar
    rw [spans_star htext hi, Between]
    simp only [GlobMatches.star_iff, and_true]
    constructor
    · rintro ⟨hij, hj⟩
      refine ⟨hj, (text.drop i).take (j - i), ?_⟩
      rw [← Nat.add_sub_cancel' hij, ← List.drop_drop, Nat.add_sub_cancel_left,
        List.take_append_drop]
    · rintro ⟨hj, m, h⟩
      have hlength := congrArg List.length h
      simp only [List.length_drop, List.length_append] at hlength
      omega
  · by_cases hmark : c = '?'
    · subst hmark
      have hor : Between text (GlobMatches ['?']) i j ↔
          Between text (· = []) i j ∨ Between text (fun m => ∃ d, m = [d] ∧ True) i j := by
        simp only [Between, GlobMatches.mark_iff, and_true, and_or_left, exists_or]
      rw [hor, between_nil_iff hi, between_singleton_iff hi]
      change Spans text anyPiece.regex i j ∨ i = j ↔ _
      rw [spans_anyPiece htext, or_comm]
      simp [← Option.isSome_iff_exists]
    · have hpiece : Spans text (globPiece c).regex i j ↔
          j = i + 1 ∧ ∃ d, text[i]? = some d ∧ (Text.caseVariants c).contains d = true := by
        simp only [globPiece, hstar, hmark, if_false]
        rfl
      rw [hpiece, between_congr fun m => GlobMatches.char_iff hstar hmark,
        between_singleton_iff hi]
      refine and_congr_right fun _ => exists_congr fun d => and_congr_right fun hd => ?_
      exact Text.contains_caseVariants_iff hc (htext d (List.mem_of_getElem? hd)).1

/-- **The pieces of a glob span the stretches that the glob matches.** -/
theorem row_globPieces {glob : List Char} (hglob : ∀ c ∈ glob, c.toNat < 128) :
    Row text (glob.map globPiece) i j ↔ Between text (GlobMatches glob) i j := by
  induction glob generalizing i with
  | nil =>
    rw [between_congr fun m => GlobMatches.nil_iff, between_nil_iff hi]
    rfl
  | cons c glob ih =>
    rw [List.forall_mem_cons] at hglob
    have happend : ∀ m, GlobMatches (c :: glob) m ↔
        ∃ a b, m = a ++ b ∧ GlobMatches [c] a ∧ GlobMatches glob b := fun m =>
      List.singleton_append ▸ GlobMatches.append_iff
    rw [between_congr happend, ← comp_between hi, List.map_cons, Row]
    refine exists_congr fun k => ?_
    rw [spans_globPiece htext hi hglob.1]
    exact and_congr_right fun hk => ih hk.1 hglob.2

end

/-- The start of the pattern holds the match at the start of the text, unless the glob starts with a
star. -/
theorem row_globStart {text glob : List Char} {i j : ℕ} (hi : i ≤ text.length) :
    Row text (globStart glob) i j ↔ i = j ∧ (glob.head? ≠ some '*' → i = 0) := by
  unfold globStart
  split_ifs with h
  · simp [Row, h]
  · have htake : (text.take i).getLast?.isNone = true ↔ i = 0 := by
      rw [Option.isNone_iff_eq_none, List.getLast?_eq_none_iff, List.take_eq_nil_iff]
      refine ⟨?_, .inl⟩
      rintro (h | rfl)
      · exact h
      · exact Nat.le_zero.mp hi
    rw [Row, Row, Relation.comp_eq]
    change i = j ∧ (text.take i).getLast?.isNone = true ↔ _
    rw [htake]
    simp [h]

/-- The end of the pattern holds it at the end of the text, unless the glob ends with a star. -/
theorem row_globFinish {text glob : List Char} {i j : ℕ} (hi : i ≤ text.length) :
    Row text (globFinish glob) i j ↔ i = j ∧ (glob.getLast? ≠ some '*' → i = text.length) := by
  unfold globFinish
  split_ifs with h
  · simp [Row, h]
  · have hdrop : (text.drop i).head?.isNone = true ↔ i = text.length := by
      rw [Option.isNone_iff_eq_none, List.head?_eq_none_iff, List.drop_eq_nil_iff]
      exact ⟨fun h => Nat.le_antisymm hi h, fun h => h.ge⟩
    rw [Row, Row, Relation.comp_eq]
    change i = j ∧ (text.drop i).head?.isNone = true ↔ _
    rw [hdrop]
    simp [h]

/-- Searching for the pieces of a pattern is matching the whole text. -/
theorem exists_row_globPieces_iff {text glob : List Char} (htext : IsAsciiLine text)
    (hglob : ∀ c ∈ glob, c.toNat < 128) :
    (∃ i j, i ≤ text.length ∧ Row text (globPieces glob) i j) ↔ GlobMatches glob text := by
  have htrim : ∀ c ∈ trimStars glob, c.toNat < 128 := fun c hc =>
    hglob c ((trimStars_sublist glob).mem hc)
  rw [globMatches_iff_trimStars]
  constructor
  · rintro ⟨i, j, hi, hrow⟩
    rw [globPieces, row_append, row_append] at hrow
    obtain ⟨_, hstart, k, hmiddle, hfinish⟩ := hrow
    obtain ⟨rfl, hzero⟩ := (row_globStart hi).mp hstart
    obtain ⟨hk, m, hm, hmatch⟩ := (row_globPieces htext hi htrim).mp hmiddle
    obtain ⟨-, hlength⟩ := (row_globFinish hk).mp hfinish
    refine ⟨text.take i, m, text.drop k, ?_, fun h => ?_, fun h => ?_, hmatch⟩
    · rw [← hm, List.take_append_drop]
    · rw [hzero h, List.take_zero]
    · rw [hlength h, List.drop_length]
  · rintro ⟨before, middle, after, rfl, hbefore, hafter, hmatch⟩
    have hi : before.length ≤ (before ++ (middle ++ after)).length := by simp
    have hj : before.length + middle.length ≤ (before ++ (middle ++ after)).length := by simp
    refine ⟨before.length, before.length + middle.length, hi, ?_⟩
    rw [globPieces, row_append, row_append]
    refine ⟨_, (row_globStart hi).mpr ⟨rfl, fun h => by simp [hbefore h]⟩, _,
      (row_globPieces htext hi htrim).mpr ⟨hj, middle, ?_, hmatch⟩,
      (row_globFinish hj).mpr ⟨rfl, fun h => by simp [hafter h]⟩⟩
    rw [← List.drop_drop, List.drop_left, List.drop_left]

/-! ## Limits -/

theorem globPiece_bounds (c : Char) : (globPiece c).depth ≤ 1 ∧ (globPiece c).weight ≤ 464 := by
  unfold globPiece
  split_ifs
  · decide
  · decide
  · have hsize := c.utf8Size_le_four
    refine ⟨Nat.zero_le _, ?_⟩
    change 2 * 32 * c.utf8Size ≤ 464
    omega

theorem globPieces_bounds (glob : List Char) :
    ∀ p ∈ globPieces glob, p.depth ≤ 1 ∧ p.weight ≤ 464 := by
  intro p hp
  simp only [globPieces, globStart, globFinish, List.mem_append, List.mem_map] at hp
  rcases hp with hp | ⟨c, -, rfl⟩ | hp
  · split_ifs at hp <;> simp_all [Piece.ofLook, Piece.stateWeight]
  · exact globPiece_bounds c
  · split_ifs at hp <;> simp_all [Piece.ofLook, Piece.stateWeight]

theorem length_globPieces_le (glob : List Char) :
    (globPieces glob).length ≤ glob.length + 2 := by
  have htrim := (trimStars_sublist glob).length_le
  have hstart : (globStart glob).length ≤ 1 := by unfold globStart; split_ifs <;> simp
  have hfinish : (globFinish glob).length ≤ 1 := by unfold globFinish; split_ifs <;> simp
  simp only [globPieces, List.length_append, List.length_map]
  omega

/-- The size of the pattern of a glob is linear in its length. -/
theorem concat_globPieces_bounds (glob : List Char) :
    (Piece.concat (globPieces glob).reverse).depth ≤ 2 ∧
      (Piece.concat (globPieces glob).reverse).weight ≤ 464 * (glob.length + 2) := by
  obtain ⟨hdepth, hweight⟩ := Piece.concat_bounds fun p hp =>
    globPieces_bounds glob p (List.mem_reverse.mp hp)
  rw [List.length_reverse] at hweight
  exact ⟨hdepth, hweight.trans (Nat.mul_le_mul_left _ (length_globPieces_le glob))⟩

/-- **The pattern of a glob is found exactly in the texts that the glob matches.**  It is a regular
expression whatever the glob; its nesting is within the limits, and its weight unless the glob has
tens of thousands of characters. -/
theorem isMatch_ofGlob_iff {glob : String} (hglob : ∀ c ∈ glob.toList, c.toNat < 128) :
    ∃ piece, read? (ofGlob glob).mode (ofGlob glob).source.toList = some piece ∧
      piece.weight ≤ 464 * (glob.toList.length + 2) ∧
      (piece.weight ≤ 10 * 1024 * 1024 → (ofGlob glob).compile? = some piece.regex) ∧
      ∀ text : String, (∀ c ∈ text.toList, c.toNat < 128 ∧ c ≠ '\n') →
        (piece.regex.isMatch text.toList = true ↔ GlobMatches glob.toList text.toList) := by
  obtain ⟨hdepth, hbound⟩ := concat_globPieces_bounds glob.toList
  refine ⟨_, read?_ofGlob glob, hbound, fun hweight => ?_, fun text htext => ?_⟩
  · have hlimits : (Piece.concat (globPieces glob.toList).reverse).withinLimits := by
      rw [Piece.withinLimits, Bool.and_eq_true, decide_eq_true_iff, decide_eq_true_iff]
      exact ⟨by omega, hweight⟩
    rw [compile?, read?_ofGlob]
    simp [hlimits]
  · rw [isMatch_iff, Piece.spans_concat, List.reverse_reverse]
    exact exists_row_globPieces_iff htext hglob

theorem isMatch_ofGlob_iff_extension :
    ∃ regex, (ofGlob "*?.C").compile? = some regex ∧ regex.isMatch "ab.c".toList = true := by
  have hglob : ∀ c ∈ "*?.C".toList, c.toNat < 128 := by simp
  have htext : ∀ c ∈ "ab.c".toList, c.toNat < 128 ∧ c ≠ '\n' := by simp
  obtain ⟨piece, -, hweight, hcompile, hmatch⟩ := isMatch_ofGlob_iff hglob
  refine ⟨piece.regex, hcompile (hweight.trans (by decide)), (hmatch "ab.c" htext).mpr ?_⟩
  exact .star ['a'] (.one 'b' (.char (by decide) (by decide) rfl
    (.char (by decide) (by decide) (by decide) .nil)))

end Pattern

end ResourceQuery
