import Mathlib.Tactic.Positivity
import Mathlib.Data.Int.Order.Lemmas

/-!
# Signed integer types

The arithmetic of C++ on a signed integer type. Operands that are narrower than `int` are promoted
to it. An operation whose exact result cannot be represented in the promoted type is undefined; any
other result is converted back modulo a power of two. A division by a count of type `size_t`
converts both operands to that unsigned type.

## Main definitions

* `Fits W z`: the integer `z` is a value of the signed type of `W` bits
* `SignedInt W`: a value of that type, or the result of an undefined operation
* `SignedInt.divSize`: the division by a count

## Main results

* `SignedInt.sub_add_ofInt`: a difference and a sum are undefined only where the difference is
* `SignedInt.divSize_eq_iff`: when the division by a count truncates toward zero
-/

namespace Cxx

/-- The integer is a value of the signed type of `W` bits. -/
def Fits (W : ℕ) (z : ℤ) : Prop := -2 ^ (W - 1) ≤ z ∧ z < 2 ^ (W - 1)

instance (W : ℕ) (z : ℤ) : Decidable (Fits W z) := inferInstanceAs (Decidable (_ ∧ _))

/-- A value of the signed integer type of `W` bits, or what an undefined operation leaves. -/
inductive SignedInt (W : ℕ)
  | value (x : BitVec W)
  | undefined
  deriving DecidableEq

/-- The width of `int`. -/
def intWidth : ℕ := 32

/-- The width of the type that operands of `W` bits are promoted to. -/
def promoted (W : ℕ) : ℕ := max W intWidth

namespace SignedInt

variable {W : ℕ}

/-- The conversion of an integer, modulo a power of two. -/
def ofInt (z : ℤ) : SignedInt W := .value (BitVec.ofInt W z)

/-- An operation on promoted operands, and the conversion of its result. -/
def arith (f : ℤ → ℤ → ℤ) : SignedInt W → SignedInt W → SignedInt W
  | .value x, .value y =>
    if Fits (promoted W) (f x.toInt y.toInt) then ofInt (f x.toInt y.toInt) else .undefined
  | _, _ => .undefined

instance : Zero (SignedInt W) := ⟨.value 0⟩

instance : Add (SignedInt W) := ⟨arith (· + ·)⟩

instance : Sub (SignedInt W) := ⟨arith (· - ·)⟩

/-- The division by a count of type `size_t`: an unsigned division of 64 bits, and the conversion
of the quotient. -/
def divSize : SignedInt W → ℕ → SignedInt W
  | .value x, n => .value (BitVec.ofNat W ((BitVec.ofInt 64 x.toInt).toNat / n))
  | .undefined, _ => .undefined

end SignedInt

variable {W : ℕ} {z : ℤ}

theorem fits_toInt (x : BitVec W) : Fits W x.toInt :=
  ⟨x.le_toInt, x.toInt_lt⟩

theorem Fits.mono {V : ℕ} (h : Fits V z) (hVW : V ≤ W) : Fits W z := by
  have hpow : (2 : ℤ) ^ (V - 1) ≤ 2 ^ (W - 1) := pow_le_pow_right₀ (by norm_num) (by omega)
  exact ⟨(neg_le_neg hpow).trans h.1, h.2.trans_le hpow⟩

theorem Fits.toInt_ofInt (hW : 0 < W) (h : Fits W z) : (BitVec.ofInt W z).toInt = z :=
  BitVec.toInt_ofInt_eq_self hW h.1 h.2

namespace SignedInt

/-! ## A difference and a sum -/

@[simp] theorem undefined_sub (y : SignedInt W) : .undefined - y = .undefined := rfl

@[simp] theorem undefined_add (y : SignedInt W) : .undefined + y = .undefined := rfl

theorem ofInt_sub_value (hW : 0 < W) {s : ℤ} (hs : Fits W s) (old : BitVec W) :
    (ofInt s : SignedInt W) - .value old =
      if Fits (promoted W) (s - old.toInt) then ofInt (s - old.toInt) else .undefined := by
  have harith : (ofInt s : SignedInt W) - .value old =
      if Fits (promoted W) ((BitVec.ofInt W s).toInt - old.toInt) then
        ofInt ((BitVec.ofInt W s).toInt - old.toInt) else .undefined := rfl
  rw [harith, hs.toInt_ofInt hW]

/-- What is added to a converted difference: the exact result counts, as far as it fits. -/
theorem ofInt_add_value (hW : 0 < W) {d : ℤ} (hd : Fits (promoted W) d) (val : BitVec W)
    (h : Fits W (d + val.toInt)) :
    (ofInt d : SignedInt W) + .value val = ofInt (d + val.toInt) := by
  have harith : (ofInt d : SignedInt W) + .value val =
      if Fits (promoted W) ((BitVec.ofInt W d).toInt + val.toInt) then
        ofInt ((BitVec.ofInt W d).toInt + val.toInt) else .undefined := rfl
  have hfits : Fits (promoted W) ((BitVec.ofInt W d).toInt + val.toInt) := by
    rcases lt_or_ge W intWidth with hint | hint
    · -- two narrow values are added in `int`
      have hd' : Fits 31 (BitVec.ofInt W d).toInt := (fits_toInt _).mono (Nat.le_of_lt_succ hint)
      have hval : Fits 31 val.toInt := (fits_toInt val).mono (Nat.le_of_lt_succ hint)
      rw [promoted, max_eq_right hint.le]
      unfold Fits intWidth at *
      norm_num at hd' hval ⊢
      omega
    · -- the difference is a value of the type itself
      rw [promoted, max_eq_left hint] at hd ⊢
      rwa [hd.toInt_ofInt hW]
  have hconv : BitVec.ofInt W ((BitVec.ofInt W d).toInt + val.toInt) =
      BitVec.ofInt W (d + val.toInt) := by
    simp only [BitVec.ofInt_add, BitVec.ofInt_toInt]
  rw [harith, if_pos hfits, ofInt, ofInt, hconv]

/-- **A difference and a sum are undefined only where the difference is**, when their result is a
value of the type. -/
theorem sub_add_ofInt (hW : 0 < W) {s : ℤ} (hs : Fits W s) (old val : BitVec W)
    (h : Fits W (s - old.toInt + val.toInt)) :
    (ofInt s : SignedInt W) - .value old + .value val =
      if Fits (promoted W) (s - old.toInt) then ofInt (s - old.toInt + val.toInt)
      else .undefined := by
  rw [ofInt_sub_value hW hs]
  split_ifs with hd
  · exact ofInt_add_value hW hd val h
  · rfl

/-! ## The division by a count -/

/-- A count that is not zero divides the converted operand. -/
theorem sub_div_add_div {N m n : ℕ} (hm : m ≤ N) (hn : 0 < n) :
    (N - m) / n + m / n = (N - m % n) / n := by
  have hmod := Nat.mod_add_div m n
  have hsub : N - m % n = N - m + n * (m / n) := by omega
  rw [hsub, Nat.add_mul_div_left _ _ hn]

/-- The quotient of a negative operand, converted back. -/
theorem toInt_ofNat_eq_neg_iff (hW : 0 < W) {q a : ℕ} (ha : Fits W (-a : ℤ)) :
    (BitVec.ofNat W q).toInt = -a ↔ 2 ^ W ∣ q + a := by
  have hneg : (-a : ℤ).bmod (2 ^ W) = -a := by
    rw [← BitVec.toInt_ofInt, ha.toInt_ofInt hW]
  rw [BitVec.toInt_ofNat', ← hneg, Int.bmod_eq_bmod_iff_bmod_sub_eq_zero,
    ← Int.dvd_iff_bmod_eq_zero, sub_neg_eq_add, ← Nat.cast_add, Int.natCast_dvd_natCast]

/-- An operand that is not negative is not changed by the conversion. -/
theorem divSize_natCast (hW : 0 < W) (hW' : W ≤ 64) {m : ℕ} (hm : Fits W (m : ℤ)) (n : ℕ) :
    divSize (ofInt m : SignedInt W) n = ofInt ((m : ℤ).tdiv n) := by
  have h64 := (hm.mono hW').2
  have hconv : (BitVec.ofInt 64 m).toNat = m := by
    rw [BitVec.toNat_ofInt]
    norm_num at h64 ⊢
    omega
  have hdiv : divSize (ofInt m : SignedInt W) n =
      .value (BitVec.ofNat W ((BitVec.ofInt 64 (BitVec.ofInt W m).toInt).toNat / n)) := rfl
  rw [hdiv, hm.toInt_ofInt hW, hconv, ← Int.ofNat_tdiv, ofInt, BitVec.ofInt_natCast]

/-- A negative operand is converted to an unsigned one. -/
theorem divSize_neg (hW : 0 < W) (hW' : W ≤ 64) {m : ℕ} (hm : Fits W (-m : ℤ)) (hpos : 0 < m)
    (n : ℕ) :
    divSize (ofInt (-m) : SignedInt W) n = .value (BitVec.ofNat W ((2 ^ 64 - m) / n)) := by
  have h64 := (hm.mono hW').1
  have hconv : (BitVec.ofInt 64 (-m)).toNat = 2 ^ 64 - m := by
    rw [BitVec.toNat_ofInt]
    norm_num at h64 ⊢
    omega
  have hdiv : divSize (ofInt (-m) : SignedInt W) n =
      .value (BitVec.ofNat W ((BitVec.ofInt 64 (BitVec.ofInt W (-m)).toInt).toNat / n)) := rfl
  rw [hdiv, hm.toInt_ofInt hW, hconv]

/-- The exact quotient lies between zero and the operand. -/
theorem fits_tdiv {s : ℤ} (hs : Fits W s) (n : ℕ) : Fits W (s.tdiv n) := by
  have hpow : (0 : ℤ) < 2 ^ (W - 1) := by positivity
  have hle : s.natAbs / n ≤ s.natAbs := Nat.div_le_self _ _
  rcases le_total 0 s with hpos | hneg
  · obtain ⟨m, rfl⟩ := Int.eq_ofNat_of_zero_le hpos
    rw [Int.natAbs_natCast] at hle
    have hquot := Int.natCast_nonneg (m / n)
    rw [← Int.ofNat_tdiv]
    exact ⟨by omega, lt_of_le_of_lt (by exact_mod_cast hle) hs.2⟩
  · obtain ⟨m, rfl⟩ := Int.exists_eq_neg_ofNat hneg
    rw [Int.natAbs_neg, Int.natAbs_natCast] at hle
    have hquot := Int.natCast_nonneg (m / n)
    rw [Int.neg_tdiv, ← Int.ofNat_tdiv]
    exact ⟨hs.1.trans (by omega), by omega⟩

/-- **The division by a count truncates toward zero exactly when** the operand is not negative, or
the quotients on both sides of zero differ by a multiple of the modulus. -/
theorem divSize_eq_iff (hW : 0 < W) (hW' : W ≤ 64) {s : ℤ} (hs : Fits W s) {n : ℕ} (hn : 0 < n) :
    (∃ r, divSize (ofInt s : SignedInt W) n = .value r ∧ r.toInt = s.tdiv n) ↔
      0 ≤ s ∨ 2 ^ W ∣ (2 ^ 64 - s.natAbs % n) / n := by
  have hquot := fits_tdiv hs n
  rcases lt_or_ge s 0 with hneg | hpos
  · obtain ⟨m, hm, rfl⟩ : ∃ m : ℕ, 0 < m ∧ s = -m := ⟨s.natAbs, by omega, by omega⟩
    have hle : m ≤ 2 ^ 64 := by
      have h64 := (hs.mono hW').1
      norm_num at h64 ⊢
      omega
    rw [Int.neg_tdiv, ← Int.ofNat_tdiv] at hquot ⊢
    simp only [divSize_neg hW hW' hs hm, value.injEq, exists_eq_left']
    rw [toInt_ofNat_eq_neg_iff hW hquot, sub_div_add_div hle hn, Int.natAbs_neg,
      Int.natAbs_natCast, or_iff_right hneg.not_ge]
  · obtain ⟨m, rfl⟩ := Int.eq_ofNat_of_zero_le hpos
    refine iff_of_true ⟨_, divSize_natCast hW hW' hs n, ?_⟩ (.inl hpos)
    rw [hquot.toInt_ofInt hW]

end SignedInt

end Cxx
