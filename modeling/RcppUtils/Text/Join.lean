import Mathlib.Algebra.Group.Nat.Defs
import RcppUtils.Text.Split

/-!
# Joining strings

`join` prints the values of a container into a stream, the delimiter behind each, and cuts the
last delimiter off by the length of the result.

## Main definitions

* `copyToStream`, `join`: the printed values, and the result with the last delimiter cut off
* `substr`: the call that cuts it off, which may throw

## Main results

* `join_eq_intercalate`: the delimiter stands between consecutive values only
* `join_cuts_delimiter`: what is cut off is one delimiter, and never a character of a value
* `split_join_inverse`: splitting and joining at one character are inverse
-/

namespace RcppUtils

open Posix

section Join

variable {ValueT CharT : Type} (print : ValueT → List CharT)

/-- `std::copy` to a `std::ostream_iterator`: each value is printed, and behind it the delimiter,
unless that is a null pointer. -/
def copyToStream (delim : Option (List CharT)) : List ValueT → List CharT
  | [] => []
  | value :: values => print value ++ delim.getD [] ++ copyToStream delim values

/-- The difference of two values of `size_t`, which wraps below zero. -/
def sizeSub (a b : ℕ) : ℕ := if b ≤ a then a - b else 2 ^ 64 + a - b

/-- `join(container, delim)`, for values printed by `print` and a delimiter given by its
characters before the null. -/
def join (container : List ValueT) (delim : Option (List CharT)) : List CharT :=
  let result := copyToStream print delim container
  match delim with
  | none => result
  | some delim => result.take (sizeSub result.length delim.length)

/-- A null pointer prints what an empty delimiter prints. -/
theorem copyToStream_eq (delim : Option (List CharT)) (values : List ValueT) :
    copyToStream print delim values =
      (delim.getD []).intercalate (values.map print) ++
        if values = [] then [] else delim.getD [] := by
  induction values with
  | nil => rfl
  | cons value values ih =>
    rcases eq_or_ne values [] with rfl | hne
    · simp [copyToStream]
    · simp [copyToStream, ih, hne, List.intercalate_cons_of_ne_nil]

/-- **The delimiter stands between consecutive values only.** -/
theorem join_eq_intercalate (values : List ValueT) (delim : List CharT) :
    join print values (some delim) = delim.intercalate (values.map print) := by
  rw [join, copyToStream_eq]
  rcases eq_or_ne values [] with rfl | hne
  · simp
  · -- the result ends in a delimiter, so the difference does not wrap
    simp [hne, sizeSub]

/-- `s.substr(pos, n)`, or `none` when it throws. -/
def substr (s : List CharT) (pos n : ℕ) : Option (List CharT) :=
  if s.length < pos then none else some ((s.drop pos).take n)

/-- **Only the last delimiter is cut off**: the delimiter stands between consecutive values, also
when it is empty or a null pointer. The call that cuts never throws, and leaves the printed values
as they are, also where the difference wraps. -/
theorem join_cuts_delimiter (values : List ValueT) (delim : Option (List CharT)) :
    join print values delim = (delim.getD []).intercalate (values.map print) ∧
      ∀ d, delim = some d →
        copyToStream print delim values =
          join print values delim ++ (if values = [] then [] else d) ∧
        substr (copyToStream print delim values) 0
          (sizeSub (copyToStream print delim values).length d.length) =
            some (join print values delim) := by
  have hstream := copyToStream_eq print delim values
  have hjoin : join print values delim = (delim.getD []).intercalate (values.map print) := by
    cases delim with
    | none => simpa [join] using hstream
    | some d => exact join_eq_intercalate print values d
  refine ⟨hjoin, ?_⟩
  rintro d rfl
  rw [Option.getD_some] at hstream hjoin
  refine ⟨by rw [hstream, hjoin], ?_⟩
  rw [substr, if_neg (Nat.not_lt_zero _), List.drop_zero, join]

end Join

/-! ## Splitting and joining -/

/-- What joins the tokens of a string is the string without a final delimiter. -/
theorem intercalate_tokens (d : Char) (s : StdString) :
    [d].intercalate (tokens d s) ++ (if s.getLast? = some d then [d] else []) = s := by
  rcases List.eq_nil_or_concat s with rfl | ⟨s, c, rfl⟩
  · simp
  rw [List.concat_eq_append]
  -- what the last character is decides about the last piece
  rcases eq_or_ne c d with rfl | hc
  · simp [tokens_concat]
  · have h := splitOn_eq_tokens d (s ++ [c])
    rw [if_neg (by simp [hc]), List.append_nil] at h
    simp [← h, hc]

/-- Strings without the delimiter are the tokens of what they are joined to, unless the last one
is empty. -/
theorem tokens_intercalate (d : Char) {xs : List StdString} (hd : ∀ x ∈ xs, d ∉ x)
    (hlast : xs.getLast? ≠ some []) : tokens d ([d].intercalate xs) = xs := by
  rcases eq_or_ne xs [] with rfl | hne
  · simp
  · rw [tokens, List.splitOn_intercalate d hd hne, if_neg hlast]

/-- **Splitting and joining at one character are inverse**: on every string, up to one final
delimiter, and on every list of strings without the delimiter whose last string is not empty. -/
theorem split_join_inverse (d : Char) (hd : d ≠ nul) :
    (∀ s : StdString, join id (split s d false) (some (cStr [d])) ++
        (if s.getLast? = some d then [d] else []) = s) ∧
      ∀ xs : List StdString, (∀ x ∈ xs, d ∉ x) →
        (xs = [] ∨ ∃ x, xs.getLast? = some x ∧ x ≠ []) →
        split (join id xs (some (cStr [d]))) d false = xs := by
  have hstr : cStr [d] = [d] := cStr_of_nul_notMem (by simpa using hd.symm)
  constructor
  · intro s
    rw [hstr, join_eq_intercalate, List.map_id, split_eq_tokens]
    exact intercalate_tokens d s
  · intro xs hxs hlast
    rw [hstr, join_eq_intercalate, List.map_id, split_eq_tokens]
    apply tokens_intercalate d hxs
    rintro h
    rcases hlast with rfl | ⟨x, hx, hne⟩
    · simp at h
    · exact hne (Option.some.inj (hx.symm.trans h))

/-- A run of delimiters and a final one survive the round trip. -/
theorem split_join_inverse_slash :
    join id (split "//a/b/".toList '/' false) (some (cStr ['/'])) ++ ['/'] = "//a/b/".toList ∧
      split (join id ["".toList, "a".toList] (some (cStr ['/']))) '/' false =
        ["".toList, "a".toList] :=
  have h := split_join_inverse '/' (by decide)
  ⟨h.1 "//a/b/".toList, h.2 ["".toList, "a".toList] (by decide) (.inr ⟨"a".toList, by decide⟩)⟩

end RcppUtils
