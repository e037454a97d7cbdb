import Mathlib.Algebra.Group.Nat.Even
import Mathlib.Algebra.Order.Ring.Int
import Mathlib.Data.Int.Init
import Mathlib.Tactic.Ring

/-!
# Rounding to a number of significant bits

An integer is rounded to the nearest one with at most `p` significant bits, and to the even one of
two that are equally near. Around `n`, the numbers with `p` significant bits are the multiples of
one power of two.

## Main definitions

* `nearest u n`: the nearest multiple of `u`, ties to even
* `spacing p n`, `roundNat p n`, `round p z`: rounding to `p` significant bits

## Main results

* `roundNat_of_lt`: numbers below `2 ^ p` are not changed
* `two_pow_mul_roundNat_le`: the relative error
* `roundNat_le_two_pow_iff`, `natAbs_round_le_two_pow_iff`: what is rounded to at most a power of
  two
-/

namespace Rounding

/-- The nearest multiple of `u`, and the even one of two that are equally near. -/
def nearest (u n : ℕ) : ℕ :=
  if u < 2 * (n % u) ∨ u = 2 * (n % u) ∧ n / u % 2 = 1 then (n / u + 1) * u else n / u * u

/-- The distance of the numbers with `p` significant bits around `n`. -/
def spacing (p n : ℕ) : ℕ := 2 ^ (n.log2 + 1 - p)

/-- A natural number rounded to `p` significant bits. -/
def roundNat (p n : ℕ) : ℕ := nearest (spacing p n) n

/-- An integer rounded to `p` significant bits. -/
def round (p : ℕ) (z : ℤ) : ℤ := z.sign * roundNat p z.natAbs

/-! ## The nearest multiple -/

section Nearest

variable {u n q : ℕ}

theorem nearest_one (n : ℕ) : nearest 1 n = n := by
  simp [nearest, Nat.mod_one]

/-- The nearest multiple is at most half the distance away. -/
theorem two_mul_nearest_le (u n : ℕ) : 2 * nearest u n ≤ 2 * n + u := by
  have hn : n / u * u + n % u = n := Nat.div_add_mod' n u
  unfold nearest
  split_ifs with h
  · rw [Nat.add_one_mul (n / u)]
    omega
  · omega

/-- A multiple below is not passed. -/
theorem mul_le_nearest (hu : 0 < u) (h : q * u ≤ n) : q * u ≤ nearest u n := by
  have hq : q * u ≤ n / u * u := Nat.mul_le_mul_right u ((Nat.le_div_iff_mul_le hu).mpr h)
  unfold nearest
  split_ifs
  · exact hq.trans (Nat.mul_le_mul_right u (Nat.le_succ _))
  · exact hq

/-- A multiple above is not passed. -/
theorem nearest_le_mul (hu : 0 < u) (h : n ≤ q * u) : nearest u n ≤ q * u := by
  have hn : n / u * u + n % u = n := Nat.div_add_mod' n u
  rcases (Nat.div_le_of_le_mul (Nat.mul_comm q u ▸ h)).lt_or_eq with hlt | heq
  · unfold nearest
    split_ifs
    · exact Nat.mul_le_mul_right u hlt
    · exact Nat.mul_le_mul_right u hlt.le
  · -- the number is the multiple itself
    have hr : n % u = 0 := by
      rw [heq] at hn
      omega
    rw [nearest, if_neg (by omega), heq]

/-- What is rounded to at most an even multiple lies at most half the distance above it. -/
theorem nearest_le_even_mul_iff (hu : 0 < u) (hq : q % 2 = 0) :
    nearest u n ≤ q * u ↔ 2 * n ≤ 2 * (q * u) + u := by
  have hn : n / u * u + n % u = n := Nat.div_add_mod' n u
  have hr : n % u < u := Nat.mod_lt n hu
  rcases lt_trichotomy (n / u) q with hlt | heq | hgt
  · have hle : n ≤ q * u := ((Nat.div_lt_iff_lt_mul hu).mp hlt).le
    exact iff_of_true (nearest_le_mul hu hle) (by omega)
  · -- between this multiple and the next one
    rw [nearest, heq]
    rw [heq] at hn
    split_ifs with h
    · rw [Nat.add_one_mul]
      omega
    · omega
  · have hle : (q + 1) * u ≤ n := (Nat.le_div_iff_mul_le hu).mp hgt
    have hnear := mul_le_nearest hu hle
    rw [Nat.add_one_mul] at hle hnear
    omega

end Nearest

/-! ## Natural numbers -/

variable {p m n : ℕ}

theorem spacing_pos (p n : ℕ) : 0 < spacing p n := Nat.two_pow_pos _

/-- The power of two below a number of more than `p` bits is a multiple of the spacing. -/
theorem two_pow_mul_spacing (hp : 0 < p) (h : p ≤ n.log2 + 1) :
    2 ^ (p - 1) * spacing p n = 2 ^ n.log2 := by
  rw [spacing, ← pow_add]
  congr 1
  omega

/-- A power of two above a number is a multiple of the spacing. -/
theorem two_pow_sub_mul_spacing (hp : 0 < p) (h : n.log2 < m) :
    2 ^ (m - (n.log2 + 1 - p)) * spacing p n = 2 ^ m := by
  rw [spacing, ← pow_add]
  congr 1
  omega

theorem lt_two_pow_of_log2_lt (h : n.log2 < m) : n < 2 ^ m :=
  Nat.lt_log2_self.trans_le (Nat.pow_le_pow_right Nat.two_pos h)

/-- Numbers of at most `p` bits are not changed. -/
theorem roundNat_of_lt (hp : 0 < p) (h : n < 2 ^ p) : roundNat p n = n := by
  have hlog : n.log2 + 1 - p = 0 := by
    rcases eq_or_ne n 0 with rfl | hn
    · simp
      omega
    · have := (Nat.log2_lt hn).mpr h
      omega
  rw [roundNat, spacing, hlog, pow_zero, nearest_one]

@[simp] theorem roundNat_zero (hp : 0 < p) : roundNat p 0 = 0 :=
  roundNat_of_lt hp (Nat.two_pow_pos p)

/-- **The relative error** of rounding to `p` bits is at most one in `2 ^ p`. -/
theorem two_pow_mul_roundNat_le (hp : 0 < p) (n : ℕ) :
    2 ^ p * roundNat p n ≤ (2 ^ p + 1) * n := by
  by_cases hlt : n < 2 ^ p
  · rw [roundNat_of_lt hp hlt]
    exact Nat.mul_le_mul_right n (Nat.le_succ _)
  have hn : n ≠ 0 := by
    rintro rfl
    exact hlt (Nat.two_pow_pos p)
  have hlog : p ≤ n.log2 := (Nat.le_log2 hn).mpr (not_lt.mp hlt)
  -- the error is at most half the spacing, and the spacing is small against the number
  have hspacing : 2 ^ (p - 1) * spacing p n ≤ n := by
    rw [two_pow_mul_spacing hp (hlog.trans (Nat.le_succ _))]
    exact Nat.log2_self_le hn
  calc 2 ^ p * roundNat p n = 2 ^ (p - 1) * (2 * roundNat p n) := by
        rw [← mul_assoc, ← pow_succ, Nat.sub_add_cancel hp]
    _ ≤ 2 ^ (p - 1) * (2 * n + spacing p n) :=
        Nat.mul_le_mul_left _ (two_mul_nearest_le _ _)
    _ = 2 ^ p * n + 2 ^ (p - 1) * spacing p n := by
        rw [mul_add, ← mul_assoc, ← pow_succ, Nat.sub_add_cancel hp]
    _ ≤ 2 ^ p * n + n := Nat.add_le_add_left hspacing _
    _ = (2 ^ p + 1) * n := (Nat.add_one_mul _ n).symm

/-- **What is rounded to at most a power of two** lies at most half the spacing above it. -/
theorem roundNat_le_two_pow_iff (hp : 2 ≤ p) (hm : p ≤ m) :
    roundNat p n ≤ 2 ^ m ↔ n ≤ 2 ^ m + 2 ^ (m - p) := by
  have hp0 : 0 < p := by omega
  rcases lt_trichotomy n.log2 m with hlt | heq | hgt
  · -- the power of two is a multiple of the spacing, so nothing below it rounds past it
    have hn := (lt_two_pow_of_log2_lt hlt).le
    refine iff_of_true ?_ (hn.trans (Nat.le_add_right _ _))
    have hmul := two_pow_sub_mul_spacing hp0 hlt
    rw [← hmul]
    exact nearest_le_mul (spacing_pos p n) (hmul ▸ hn)
  · -- the power of two is an even multiple of the spacing
    have hmul := two_pow_mul_spacing (n := n) hp0 (by omega)
    have heven : 2 ^ (p - 1) % 2 = 0 := by
      obtain ⟨k, rfl⟩ := Nat.exists_eq_add_of_le hp
      rw [show 2 + k - 1 = k + 1 by omega, pow_succ]
      exact Nat.mul_mod_left _ _
    have hspacing : spacing p n = 2 * 2 ^ (m - p) := by
      rw [spacing, heq, ← pow_succ']
      congr 1
      omega
    have hiff := nearest_le_even_mul_iff (n := n) (spacing_pos p n) heven
    rw [hmul, heq, hspacing] at hiff
    rw [roundNat, hspacing, hiff]
    omega
  · -- the power of two at the top of the number is not passed either
    have hn : n ≠ 0 := by
      rintro rfl
      simp at hgt
    have hmul := two_pow_mul_spacing (n := n) hp0 (by omega)
    have hle : 2 ^ (p - 1) * spacing p n ≤ n := hmul ▸ Nat.log2_self_le hn
    have hnear : 2 ^ n.log2 ≤ roundNat p n := hmul ▸ mul_le_nearest (spacing_pos p n) hle
    have hpow : 2 * 2 ^ m ≤ 2 ^ n.log2 := by
      rw [← pow_succ']
      exact Nat.pow_le_pow_right Nat.two_pos hgt
    have hsmall : 2 ^ (m - p) < 2 ^ m := Nat.pow_lt_pow_right (by omega) (by omega)
    have hpos : 0 < 2 ^ m := Nat.two_pow_pos m
    rw [hmul] at hle
    exact iff_of_false (by omega) (by omega)

/-! ## Integers -/

variable {z : ℤ}

theorem round_natCast (hp : 0 < p) (n : ℕ) : round p n = roundNat p n := by
  rcases eq_or_ne n 0 with rfl | hn
  · simp [round, hp]
  · rw [round, Int.sign_natCast_of_ne_zero hn, one_mul, Int.natAbs_natCast]

theorem round_neg (p : ℕ) (z : ℤ) : round p (-z) = -round p z := by
  rw [round, round, Int.sign_neg, Int.natAbs_neg, neg_mul]

theorem natAbs_round (hp : 0 < p) (z : ℤ) : (round p z).natAbs = roundNat p z.natAbs := by
  obtain ⟨n, rfl | rfl⟩ := z.eq_nat_or_neg
  · rw [round_natCast hp, Int.natAbs_natCast, Int.natAbs_natCast]
  · rw [round_neg, round_natCast hp, Int.natAbs_neg, Int.natAbs_neg, Int.natAbs_natCast,
      Int.natAbs_natCast]

/-- Integers of at most `p` bits are not changed. -/
theorem round_of_lt (hp : 0 < p) (h : z.natAbs < 2 ^ p) : round p z = z := by
  rw [round, roundNat_of_lt hp h, Int.sign_mul_natAbs]

/-- **What is rounded into a symmetric range** between powers of two. -/
theorem natAbs_round_le_two_pow_iff (hp : 2 ≤ p) (hm : p ≤ m) :
    (round p z).natAbs ≤ 2 ^ m ↔ z.natAbs ≤ 2 ^ m + 2 ^ (m - p) := by
  rw [natAbs_round (by omega), roundNat_le_two_pow_iff hp hm]

end Rounding
