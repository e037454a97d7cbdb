import Mathlib.Data.List.Basic
import Mathlib.Data.List.TakeWhile

/-!
# C strings

A function of the C library reads a character sequence up to its first null.

## Main definitions

* `nul`, `cStr s`: the null character, and the C string of a character sequence

## Main results

* `cStr_append_of_mem`, `cStr_append_of_notMem`: what is read of two sequences in a row
-/

namespace Posix

/-- The null character. -/
def nul : Char := Char.ofNat 0

@[simp] theorem nul_ne_slash : nul ≠ '/' := by
  decide

/-- The C string that `c_str()` passes: the characters before the first null. -/
def cStr (s : List Char) : List Char := s.takeWhile (· != nul)

theorem nul_notMem_cStr (s : List Char) : nul ∉ cStr s := by
  intro h
  simpa using List.mem_takeWhile_imp h

theorem mem_of_mem_cStr {s : List Char} {c : Char} (h : c ∈ cStr s) : c ∈ s :=
  (List.takeWhile_sublist _).subset h

theorem cStr_of_nul_notMem {s : List Char} (h : nul ∉ s) : cStr s = s := by
  apply List.takeWhile_eq_self_iff.mpr
  intro c hc
  simpa using ne_of_mem_of_not_mem hc h

theorem cStr_append_of_mem {s : List Char} (h : nul ∈ s) (t : List Char) :
    cStr (s ++ t) = cStr s := by
  induction s with
  | nil => cases h
  | cons c s ih =>
    by_cases hc : c = nul
    · simp [cStr, hc]
    · have hs : nul ∈ s := (List.mem_cons.mp h).resolve_left (Ne.symm hc)
      simpa [cStr, hc] using ih hs

theorem cStr_append_of_notMem {s : List Char} (h : nul ∉ s) (t : List Char) :
    cStr (s ++ t) = s ++ cStr t := by
  apply List.takeWhile_append_of_pos
  intro c hc
  simpa using ne_of_mem_of_not_mem hc h

end Posix
