import Mathlib.Algebra.Group.Nat.Defs
import Mathlib.Data.List.Basic

/-!
# Hexadecimal numbers of a fixed width

A number is written with at least `w` lowercase hexadecimal digits, zeros first.

## Main definitions

* `hexDigits`, `hexValue s`: the digits, and the number that a sequence of digits writes
* `toHex w n`: the number `n` with at least `w` digits

## Main results

* `hexValue_toHex`: the digits write the number
* `length_toHex`: a number below `16 ^ w` has exactly `w` digits
-/

namespace Hexadecimal

/-- The lowercase hexadecimal digits, in order. -/
def hexDigits : List Char :=
  ['0', '1', '2', '3', '4', '5', '6', '7', '8', '9', 'a', 'b', 'c', 'd', 'e', 'f']

/-- The number that a sequence of digits writes. -/
def hexValue (s : List Char) : ℕ := s.foldl (fun n c => 16 * n + hexDigits.idxOf c) 0

/-- The number `n` with at least `w` digits. -/
def toHex (w n : ℕ) : List Char := (Nat.toDigits 16 n).leftpad w '0'

theorem digitChar_mem_hexDigits : ∀ n < 16, n.digitChar ∈ hexDigits := by
  decide

theorem idxOf_digitChar : ∀ n < 16, hexDigits.idxOf n.digitChar = n := by
  decide

/-- One digit more at the end. -/
theorem hexValue_concat (s : List Char) (c : Char) :
    hexValue (s ++ [c]) = 16 * hexValue s + hexDigits.idxOf c := by
  simp [hexValue]

theorem hexValue_replicate_append (w : ℕ) (s : List Char) :
    hexValue (List.replicate w '0' ++ s) = hexValue s := by
  induction w with
  | zero => simp
  | succ w ih =>
    rw [List.replicate_succ, List.cons_append, ← ih]
    simp [hexValue, hexDigits]

theorem mem_toDigits {n : ℕ} {c : Char} (hc : c ∈ Nat.toDigits 16 n) : c ∈ hexDigits := by
  induction n using Nat.strongRecOn with
  | ind n ih =>
    rw [Nat.toDigits_eq_if (by decide)] at hc
    split_ifs at hc with hn
    · rw [List.mem_singleton] at hc
      exact hc ▸ digitChar_mem_hexDigits n hn
    · -- the digits of the quotient, and one digit for the rest
      rcases List.mem_append.mp hc with hc | hc
      · exact ih (n / 16) (by omega) hc
      · rw [List.mem_singleton] at hc
        exact hc ▸ digitChar_mem_hexDigits _ (by omega)

theorem hexValue_toDigits (n : ℕ) : hexValue (Nat.toDigits 16 n) = n := by
  induction n using Nat.strongRecOn with
  | ind n ih =>
    rw [Nat.toDigits_eq_if (by decide)]
    split_ifs with hn
    · simp [hexValue, idxOf_digitChar n hn]
    · rw [hexValue_concat, ih (n / 16) (by omega), idxOf_digitChar _ (by omega)]
      omega

/-! ## Numbers of a fixed width -/

theorem mem_toHex {w n : ℕ} {c : Char} (hc : c ∈ toHex w n) : c ∈ hexDigits := by
  rcases List.mem_append.mp hc with hc | hc
  · rw [List.eq_of_mem_replicate hc]
    decide
  · exact mem_toDigits hc

/-- **The digits write the number.** -/
theorem hexValue_toHex (w n : ℕ) : hexValue (toHex w n) = n := by
  rw [toHex, List.leftpad, hexValue_replicate_append, hexValue_toDigits]

/-- **A number below `16 ^ w` has exactly `w` digits.** -/
theorem length_toHex {w n : ℕ} (hw : 0 < w) (hn : n < 16 ^ w) : (toHex w n).length = w := by
  have hlen := (Nat.length_toDigits_le_iff (by decide) hw).mpr hn
  rw [toHex, List.length_leftpad]
  omega

end Hexadecimal
