import Mathlib.Data.List.Infix

/-!
# Find and replace

`find_and_replace` changes the text in place while it searches it: each occurrence that is found
is replaced, and the search goes on behind the inserted text. The text behind the position of the
search is a part of the input that no replacement has touched.

## Main definitions

* `stdFind`, `stdReplaceAt`: `find` and `replace` of `std::basic_string`
* `findAndReplace`: the function, with a bound on the rounds of its loop
* `substitute`: what it is for, the substitution from left to right

## Main results

* `findAndReplaceLoop_eq`: the loop substitutes in what stands behind the position of the search
* `findAndReplace_eq_substitute`: the loop ends, and the result is the substitution
-/

namespace RcppUtils

variable {CharT : Type} [DecidableEq CharT]

/-- `s.find(str, pos)`, with `none` for `npos`. -/
def stdFind (s str : List CharT) (pos : ℕ) : Option ℕ :=
  (List.range' pos (s.length + 1 - pos)).find? fun i => str.isPrefixOf (s.drop i)

/-- `s.replace(pos, len, str)`. -/
def stdReplaceAt (s : List CharT) (pos len : ℕ) (str : List CharT) : List CharT :=
  s.take pos ++ str ++ s.drop (pos + len)

section Loop

variable (find replace : List CharT)

/-- At most `n` rounds of the loop of `find_and_replace`; `none` when these are not enough. -/
def findAndReplaceLoop : ℕ → List CharT → Option ℕ → Option (List CharT)
  | _, output, none => some output
  | 0, _, some _ => none
  | n + 1, output, some pos =>
    let output := stdReplaceAt output pos find.length replace
    findAndReplaceLoop n output (stdFind output find (pos + replace.length))

/-- `find_and_replace(input, find, replace)`, with at most `n` rounds of its loop. -/
def findAndReplace (n : ℕ) (input : List CharT) : Option (List CharT) :=
  let output := input
  if find = replace then some output
  else if find.length = 0 then some output
  else findAndReplaceLoop find replace n output (stdFind output find 0)

/-- The substitution from left to right: at each position of the text, an occurrence of `find` is
passed over as a whole and `replace` put in its place; another character stays. -/
def substitute : List CharT → List CharT
  | [] => []
  | c :: rest =>
    if find ≠ [] ∧ find <+: c :: rest then
      replace ++ substitute ((c :: rest).drop find.length)
    else c :: substitute rest
termination_by s => s.length
decreasing_by
  · rename_i h
    have := List.length_pos_iff.mpr h.1
    simp only [List.length_drop, List.length_cons]
    omega
  · simp

variable {find replace}

/-! ## The search -/

theorem stdFind_of_lt {s str : List CharT} {pos : ℕ} (h : s.length < pos) :
    stdFind s str pos = none := by
  simp [stdFind, Nat.sub_eq_zero_of_le h]

/-- A search looks at its first position, and goes on at the next one. -/
theorem stdFind_of_le {s str : List CharT} {pos : ℕ} (h : pos ≤ s.length) :
    stdFind s str pos = if str <+: s.drop pos then some pos else stdFind s str (pos + 1) := by
  have hlen : s.length + 1 - pos = (s.length + 1 - (pos + 1)) + 1 := by omega
  rw [stdFind, hlen, List.range'_succ, List.find?_cons]
  by_cases hp : str <+: s.drop pos
  · rw [if_pos hp, List.isPrefixOf_iff_prefix.mpr hp]
  · rw [if_neg hp, Bool.eq_false_iff.mpr fun h => hp (List.isPrefixOf_iff_prefix.mp h)]
    rfl

/-- In a text that is split at the position of the search, only the part behind it counts. -/
theorem stdFind_append_cons (done str : List CharT) (c : CharT) (rest : List CharT) :
    stdFind (done ++ c :: rest) str done.length =
      if str <+: c :: rest then some done.length
      else stdFind ((done ++ [c]) ++ rest) str (done ++ [c]).length := by
  rw [stdFind_of_le (by simp), List.drop_left, List.append_assoc, List.singleton_append,
    List.length_append, List.length_singleton]

theorem stdFind_append_nil (done : List CharT) {str : List CharT} (hstr : str ≠ []) :
    stdFind (done ++ []) str done.length = none := by
  rw [stdFind_of_le (by simp), List.drop_left, if_neg (by simpa using hstr)]
  exact stdFind_of_lt (by simp)

omit [DecidableEq CharT] in
theorem stdReplaceAt_append (done rest str : List CharT) (len : ℕ) :
    stdReplaceAt (done ++ rest) done.length len str = done ++ str ++ rest.drop len := by
  simp [stdReplaceAt]

/-! ## The loop -/

/-- **The loop substitutes in what stands behind the position of the search**, whatever stands
before it. -/
theorem findAndReplaceLoop_eq (hfind : find ≠ []) (done rest : List CharT) {n : ℕ}
    (hn : rest.length ≤ n) :
    findAndReplaceLoop find replace n (done ++ rest) (stdFind (done ++ rest) find done.length) =
      some (done ++ substitute find replace rest) := by
  induction rest using substitute.induct find generalizing done n with
  | case1 =>
    rw [stdFind_append_nil done hfind, findAndReplaceLoop, substitute]
  | case2 c rest h ih =>
    -- an occurrence at the position of the search
    obtain ⟨n, rfl⟩ : ∃ m, n = m + 1 := Nat.exists_eq_add_one_of_ne_zero (by
      rintro rfl
      simp at hn)
    have hlen : ((c :: rest).drop find.length).length ≤ n := by
      have := List.length_pos_iff.mpr hfind
      simp only [List.length_drop, List.length_cons] at hn ⊢
      omega
    rw [stdFind_append_cons, if_pos h.2, findAndReplaceLoop, stdReplaceAt_append,
      ← List.length_append, ih (done ++ replace) hlen, substitute, if_pos h, List.append_assoc]
  | case3 c rest h ih =>
    have hp : ¬ find <+: c :: rest := fun hp => h ⟨hfind, hp⟩
    have hlen : rest.length ≤ n := by
      rw [List.length_cons] at hn
      omega
    rw [stdFind_append_cons, if_neg hp, List.append_cons, ih (done ++ [c]) hlen, substitute,
      if_neg h, List.append_assoc, List.singleton_append]

/-- What is put in place of itself changes nothing. -/
theorem substitute_self (find input : List CharT) : substitute find find input = input := by
  induction input using substitute.induct find with
  | case1 => rw [substitute]
  | case2 c rest h ih =>
    rw [substitute, if_pos h, ih]
    exact (List.prefix_iff_eq_append.mp h.2)
  | case3 c rest h ih =>
    rw [substitute, if_neg h, ih]

end Loop

/-- **`find_and_replace` is the substitution from left to right**: for every bound from the length
of the input on, the loop ends with the substitution in the input. Its rounds substitute in what
stands behind the position of the search; text before that, inserted or not, makes no
difference. -/
theorem findAndReplace_eq_substitute (input find replace : List CharT) :
    (∀ n, input.length ≤ n →
      findAndReplace find replace n input =
        some (if find = [] then input else substitute find replace input)) ∧
    (find ≠ [] → ∀ done rest n, rest.length ≤ n →
      findAndReplaceLoop find replace n (done ++ rest) (stdFind (done ++ rest) find done.length) =
        some (done ++ substitute find replace rest)) := by
  refine ⟨?_, fun hfind done rest n hn => findAndReplaceLoop_eq hfind done rest hn⟩
  intro n hn
  rw [findAndReplace]
  by_cases heq : find = replace
  · subst heq
    rw [if_pos rfl, substitute_self, ite_self]
  by_cases hfind : find = []
  · rw [if_neg heq, if_pos (by simp [hfind]), if_pos hfind]
  · rw [if_neg heq, if_neg (by simpa using hfind), if_neg hfind]
    exact findAndReplaceLoop_eq hfind [] input hn

/-- Each replacement completes an occurrence with the text behind it, which is not found. -/
theorem findAndReplace_eq_substitute_overlap :
    findAndReplace "ab".toList "aa".toList 4 "abbb".toList =
        some (if "ab".toList = [] then "abbb".toList
          else substitute "ab".toList "aa".toList "abbb".toList) ∧
      findAndReplaceLoop "ab".toList "aa".toList 2 ("aa".toList ++ "bb".toList)
          (stdFind ("aa".toList ++ "bb".toList) "ab".toList 2) =
        some ("aa".toList ++ substitute "ab".toList "aa".toList "bb".toList) :=
  have h := findAndReplace_eq_substitute "abbb".toList "ab".toList "aa".toList
  ⟨h.1 4 (by decide), h.2 (by decide) "aa".toList "bb".toList 2 (by decide)⟩

end RcppUtils
