import RcppUtils.Text.Delimiter
import RcppUtils.Text.FindAndReplace
import RcppUtils.Text.Join

/-!
# Replacing, splitting and joining

The occurrences that `find_and_replace` finds cut its input into pieces, whatever they are replaced
by: the result is the pieces, joined by the replacement. For a single character, the pieces are
those that `split` assigns, and the result is what `join` makes of them.

## Main definitions

* `pieces find s`: what stands between the occurrences from left to right
* `IsCut find us s`: `us` joined by `find` is `s`, where each `find` is the first one

## Main results

* `substitute_eq_intercalate`: the substitution joins the pieces
* `isCut_pieces`, `IsCut.unique`: the pieces are the only cut
* `exists_unique_cut`: one cut of the input serves all replacements
* `findAndReplace_eq_join_split`: replacing a character is splitting and joining
-/

namespace RcppUtils

open Posix

section Pieces

variable {CharT : Type} [DecidableEq CharT] (find : List CharT)

/-- What stands between the occurrences of `find` from left to right. -/
def pieces : List CharT → List (List CharT)
  | [] => [[]]
  | c :: rest =>
    if find ≠ [] ∧ find <+: c :: rest then [] :: pieces ((c :: rest).drop find.length)
    else (pieces rest).modifyHead (c :: ·)
termination_by s => s.length
decreasing_by
  · rename_i h
    have := List.length_pos_iff.mpr h.1
    simp only [List.length_drop, List.length_cons]
    omega
  · simp

/-- The text `s` is `us`, joined by `find`; each `find` in between is the first one behind the one
before it, and behind the last one there is no more. -/
structure IsCut (us : List (List CharT)) (s : List CharT) : Prop where
  ne_nil : us ≠ []
  joined : find.intercalate us = s
  first : ∀ u ∈ us.dropLast, ∀ x, x ++ find <+: u ++ find → x = u
  last : ∀ u ∈ us.getLast?, ¬ find <:+: u

variable {find}

theorem pieces_ne_nil (find s : List CharT) : pieces find s ≠ [] := by
  induction s using pieces.induct find with
  | case1 => simp [pieces]
  | case2 c rest h ih => simp [pieces, h]
  | case3 c rest h ih => simpa [pieces, h] using ih

/-- **The substitution joins the pieces.** -/
theorem substitute_eq_intercalate (find replace s : List CharT) :
    substitute find replace s = replace.intercalate (pieces find s) := by
  induction s using pieces.induct find with
  | case1 => simp [pieces, substitute]
  | case2 c rest h ih =>
    rw [substitute, if_pos h, pieces, if_pos h, ih,
      List.intercalate_cons_of_ne_nil (pieces_ne_nil _ _), List.nil_append]
  | case3 c rest h ih =>
    obtain ⟨u, us, hus⟩ := List.exists_cons_of_ne_nil (pieces_ne_nil find rest)
    rw [substitute, if_neg h, pieces, if_neg h, ih, hus, List.modifyHead_cons]
    cases us with
    | nil => simp
    | cons v vs => simp [List.intercalate_cons_cons]

/-! ### The only cut -/

section Cut

variable {u v s : List CharT} {us vs : List (List CharT)}

omit [DecidableEq CharT] in
theorem isCut_singleton : IsCut find [u] s ↔ u = s ∧ ¬ find <:+: u := by
  constructor
  · intro h
    exact ⟨by simpa using h.joined, h.last u (by simp)⟩
  · rintro ⟨rfl, hlast⟩
    exact ⟨by simp, by simp, by simp, by simpa using hlast⟩

omit [DecidableEq CharT] in
theorem isCut_cons (hus : us ≠ []) :
    IsCut find (u :: us) s ↔
      (∀ x, x ++ find <+: u ++ find → x = u) ∧ ∃ t, u ++ find ++ t = s ∧ IsCut find us t := by
  constructor
  · intro h
    refine ⟨h.first u ?_, find.intercalate us, ?_, hus, rfl, ?_, ?_⟩
    · simp [List.dropLast_cons_of_ne_nil hus]
    · rw [← h.joined, List.intercalate_cons_of_ne_nil hus]
    · intro v hv
      exact h.first v (by simp [List.dropLast_cons_of_ne_nil hus, hv])
    · simpa [List.getLast?_cons_of_ne_nil hus] using h.last
  · rintro ⟨hfirst, t, rfl, ht⟩
    refine ⟨by simp, ?_, ?_, ?_⟩
    · rw [List.intercalate_cons_of_ne_nil hus, ht.joined]
    · rw [List.dropLast_cons_of_ne_nil hus]
      exact List.forall_mem_cons.mpr ⟨hfirst, ht.first⟩
    · simpa [List.getLast?_cons_of_ne_nil hus] using ht.last

/-- The pieces are a cut. -/
theorem isCut_pieces (hfind : find ≠ []) (s : List CharT) : IsCut find (pieces find s) s := by
  induction s using pieces.induct find with
  | case1 => simpa [pieces, isCut_singleton] using hfind
  | case2 c rest h ih =>
    rw [pieces, if_pos h, isCut_cons (pieces_ne_nil _ _)]
    refine ⟨?_, _, List.prefix_iff_eq_append.mp h.2, ih⟩
    intro x hx
    have hlen := hx.length_le
    simp only [List.length_append, List.length_nil] at hlen
    exact List.length_eq_zero_iff.mp (by omega)
  | case3 c rest h ih =>
    have hpre : ¬ find <+: c :: rest := fun hp => h ⟨hfind, hp⟩
    obtain ⟨u, us, hus⟩ := List.exists_cons_of_ne_nil (pieces_ne_nil find rest)
    rw [hus] at ih
    rw [pieces, if_neg h, hus, List.modifyHead_cons]
    rcases eq_or_ne us [] with rfl | hne
    · obtain ⟨rfl, hlast⟩ := isCut_singleton.mp ih
      exact isCut_singleton.mpr ⟨rfl, fun hin => (List.infix_cons_iff.mp hin).elim hpre hlast⟩
    · obtain ⟨hfirst, t, rfl, ht⟩ := (isCut_cons hne).mp ih
      refine (isCut_cons hne).mpr ⟨?_, t, rfl, ht⟩
      intro x hx
      cases x with
      | nil =>
        -- an occurrence at the position of the character
        exact absurd (hx.trans ⟨t, by simp⟩) hpre
      | cons a x =>
        obtain ⟨rfl, hx'⟩ := List.cons_prefix_cons.mp hx
        rw [hfirst x hx']

omit [DecidableEq CharT] in
/-- Two first pieces are the same. -/
theorem first_eq {t t' : List CharT} (hu : ∀ x, x ++ find <+: u ++ find → x = u)
    (hv : ∀ x, x ++ find <+: v ++ find → x = v) (h : u ++ find ++ t = v ++ find ++ t') :
    u = v := by
  rcases List.prefix_or_prefix_of_prefix ⟨t, rfl⟩ ⟨t', h.symm⟩ with hp | hp
  · exact hv u hp
  · exact (hu v hp).symm

omit [DecidableEq CharT] in
/-- **There is one cut only**: the first pieces are the same, and so are those behind them. -/
theorem IsCut.unique (h : IsCut find us s) (h' : IsCut find vs s) : us = vs := by
  induction us generalizing vs s with
  | nil => exact absurd rfl h.ne_nil
  | cons u us ih =>
    obtain ⟨v, vs, rfl⟩ := List.exists_cons_of_ne_nil h'.ne_nil
    rcases eq_or_ne us [] with rfl | hus <;> rcases eq_or_ne vs [] with rfl | hvs
    · rw [(isCut_singleton.mp h).1, (isCut_singleton.mp h').1]
    · obtain ⟨rfl, hlast⟩ := isCut_singleton.mp h
      obtain ⟨-, t, rfl, -⟩ := (isCut_cons hvs).mp h'
      exact absurd ⟨v, t, rfl⟩ hlast
    · obtain ⟨rfl, hlast⟩ := isCut_singleton.mp h'
      obtain ⟨-, t, rfl, -⟩ := (isCut_cons hus).mp h
      exact absurd ⟨u, t, rfl⟩ hlast
    · obtain ⟨hu, t, rfl, ht⟩ := (isCut_cons hus).mp h
      obtain ⟨hv, t', he, ht'⟩ := (isCut_cons hvs).mp h'
      obtain rfl := first_eq hu hv he.symm
      rw [List.append_cancel_left he] at ht'
      rw [ih ht ht']

end Cut

/-- The pieces of a text between single characters. -/
theorem pieces_singleton (c : CharT) (s : List CharT) : pieces [c] s = s.splitOn c := by
  induction s with
  | nil => simp [pieces]
  | cons a s ih =>
    rw [pieces, List.splitOn_cons_eq_if_modifyHead]
    by_cases ha : a = c
    · simp [ha, ih]
    · simp [ha, Ne.symm ha, ih]

/-- The function joins the pieces. -/
theorem findAndReplace_eq_pieces (hfind : find ≠ []) (replace : List CharT) {input : List CharT}
    {n : ℕ} (hn : input.length ≤ n) :
    findAndReplace find replace n input = some (replace.intercalate (pieces find input)) := by
  rw [findAndReplace, ← substitute_eq_intercalate]
  by_cases heq : find = replace
  · rw [if_pos heq, ← heq, substitute_self]
  · rw [if_neg heq, if_neg (by simpa using hfind)]
    exact findAndReplaceLoop_eq hfind [] input hn

/-- **One cut of the input serves all replacements**: there is one way to write the input with each
occurrence of `find` the first one behind the one before it, and the result has the replacement in
the place of these occurrences. -/
theorem exists_unique_cut (hfind : find ≠ []) (input : List CharT) :
    ∃ us, (∀ vs, IsCut find vs input ↔ vs = us) ∧ ∀ replace n, input.length ≤ n →
      findAndReplace find replace n input = some (replace.intercalate us) := by
  refine ⟨pieces find input, ?_, fun replace n hn => findAndReplace_eq_pieces hfind replace hn⟩
  intro vs
  constructor
  · intro h
    exact h.unique (isCut_pieces hfind input)
  · rintro rfl
    exact isCut_pieces hfind input

/-- Of the overlapping occurrences in `aaab`, the first one is replaced. -/
theorem exists_unique_cut_overlap :
    ∃ us, (∀ vs, IsCut "aa".toList vs "aaab".toList ↔ vs = us) ∧
      ∀ replace n, "aaab".toList.length ≤ n →
        findAndReplace "aa".toList replace n "aaab".toList = some (replace.intercalate us) :=
  exists_unique_cut (by decide) _

end Pieces

/-- **Replacing a character is splitting and joining**: every bound from the length of the input on
is enough for the loop, and the result is the join of what `split` assigns, with one replacement
more behind a final character. -/
theorem findAndReplace_eq_join_split (input : StdString) (c : Char) {replace : StdString}
    (hreplace : nul ∉ replace) {n : ℕ} (hn : input.length ≤ n) :
    findAndReplace [c] replace n input =
      some (join id (split input c false) (some (cStr replace)) ++
        if input.getLast? = some c then replace else []) := by
  rw [findAndReplace_eq_pieces (by simp) replace hn, pieces_singleton,
    cStr_of_nul_notMem hreplace, join_eq_intercalate, List.map_id, split_eq_tokens]
  by_cases hlast : input.getLast? = some c
  · -- the token behind the final character is dropped
    obtain ⟨u, rfl⟩ := List.getLast?_eq_some_iff.mp hlast
    rw [if_pos hlast, tokens_concat, List.splitOn_append_cons_self, List.splitOn_nil,
      Delimiter.intercalate_concat _ (List.splitOn_ne_nil c u), List.append_nil]
  · rw [if_neg hlast, List.append_nil, splitOn_eq_tokens]
    by_cases hnil : input = []
    · simp [hnil]
    · rw [if_neg (by simp [hnil, hlast]), List.append_nil]

/-- Behind the final comma stands one replacement more. -/
theorem findAndReplace_eq_join_split_comma :
    findAndReplace [','] "; ".toList 5 ",a,b,".toList =
      some (join id (split ",a,b,".toList ',' false) (some (cStr "; ".toList)) ++
        if ",a,b,".toList.getLast? = some ',' then "; ".toList else []) :=
  findAndReplace_eq_join_split _ ',' (by decide) (by decide)

end RcppUtils
