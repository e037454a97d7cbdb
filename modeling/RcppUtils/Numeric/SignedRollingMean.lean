import Mathlib.Data.List.Infix
import RcppUtils.Numeric.RollingMeanAccumulator
import RcppUtils.Numeric.SignedInt

/-!
# The rolling mean of signed integers

The template puts no restriction on its type of values. With a signed integer type the running sum
may overflow between two window sums, and its division by the count of values is unsigned. The
accumulator is compared with one over the integers, which holds the same values.

## Main definitions

* `WindowSumsFit W w xs`, `DifferencesFit W w xs`: the sums that occur while values are accumulated
* `MeanIsExact W w xs`: the mean is the exact quotient, truncated toward zero

## Main results

* `Matches.accumulate`: one value keeps both accumulators alike
* `meanIsExact_iff`: when the mean is exact
-/

namespace RcppUtils

namespace RollingMeanAccumulator

open Cxx

/-- The integers that are the values of a signed type. -/
def integers {W : ℕ} (xs : List (BitVec W)) : List ℤ := xs.map BitVec.toInt

/-- The sum of the last `w` values. -/
def windowSum {W : ℕ} (w : ℕ) (xs : List (BitVec W)) : ℤ := ((integers xs).rtake w).sum

/-- All window sums are values of the type. -/
def WindowSumsFit (W w : ℕ) (xs : List (BitVec W)) : Prop :=
  ∀ ys ∈ xs.inits, Fits W (windowSum w ys)

/-- Before each value but the first `w`, the sum without the oldest value of the window is a value
of the promoted type. -/
def DifferencesFit (W w : ℕ) (xs : List (BitVec W)) : Prop :=
  ∀ ys ∈ xs.dropLast.inits, Fits (promoted W) (windowSum (w - 1) ys)

instance (W w : ℕ) (xs : List (BitVec W)) : Decidable (WindowSumsFit W w xs) :=
  inferInstanceAs (Decidable (∀ ys ∈ xs.inits, _))

instance (W w : ℕ) (xs : List (BitVec W)) : Decidable (DifferencesFit W w xs) :=
  inferInstanceAs (Decidable (∀ ys ∈ xs.dropLast.inits, _))

/-- After the values `xs`, the mean is the exact sum of the last values over their number, truncated
toward zero. -/
def MeanIsExact (W w : ℕ) (xs : List (BitVec W)) : Prop :=
  ∃ acc r, (ofWindowSize w).accumulateAll (xs.map SignedInt.value) = some acc ∧
    acc.getRollingMean SignedInt.divSize = some (.value r) ∧
    r.toInt = (windowSum w xs).tdiv (min xs.length w : ℕ)

/-! ## The window sums -/

variable {W w : ℕ} {xs : List (BitVec W)}

@[simp] theorem integers_concat (xs : List (BitVec W)) (v : BitVec W) :
    integers (xs ++ [v]) = integers xs ++ [v.toInt] := by
  simp [integers]

@[simp] theorem windowSum_nil (w : ℕ) : windowSum w ([] : List (BitVec W)) = 0 := by
  simp [windowSum, integers]

theorem windowSum_concat (hw : 1 ≤ w) (xs : List (BitVec W)) (v : BitVec W) :
    windowSum w (xs ++ [v]) = windowSum (w - 1) xs + v.toInt := by
  obtain ⟨w, rfl⟩ := Nat.exists_eq_add_of_le' hw
  rw [windowSum, integers_concat, List.rtake_concat_succ, List.sum_append, List.sum_singleton,
    Nat.add_sub_cancel, windowSum]

theorem windowSumsFit_concat {v : BitVec W} :
    WindowSumsFit W w (xs ++ [v]) ↔
      WindowSumsFit W w xs ∧ Fits W (windowSum w (xs ++ [v])) := by
  simp only [WindowSumsFit, List.mem_inits, List.prefix_concat_iff, forall_eq_or_imp]
  exact and_comm

theorem differencesFit_nil : DifferencesFit W w [] := by
  have hpow : (0 : ℤ) < 2 ^ (promoted W - 1) := by positivity
  simp [DifferencesFit, Fits, hpow, hpow.le]

theorem differencesFit_concat {v : BitVec W} :
    DifferencesFit W w (xs ++ [v]) ↔
      DifferencesFit W w xs ∧ Fits (promoted W) (windowSum (w - 1) xs) := by
  rcases xs.eq_nil_or_concat with rfl | ⟨xs, u, rfl⟩
  · simp [DifferencesFit]
  · simp only [DifferencesFit, List.concat_eq_append, List.dropLast_concat, List.mem_inits,
      List.prefix_concat_iff, forall_eq_or_imp]
    exact and_comm

theorem WindowSumsFit.fits (h : WindowSumsFit W w xs) : Fits W (windowSum w xs) :=
  h xs (List.mem_inits xs xs |>.mpr List.prefix_rfl)

/-! ## Two accumulators -/

/-- The accumulator over the signed type holds the values of the one over the integers. -/
structure Matches (acc : RollingMeanAccumulator (SignedInt W)) (exact : RollingMeanAccumulator ℤ) :
    Prop where
  buffer : ∃ bs : List (BitVec W),
    acc.buffer = bs.map SignedInt.value ∧ exact.buffer = integers bs
  nextInsert : acc.nextInsert = exact.nextInsert
  bufferFilled : acc.bufferFilled = exact.bufferFilled

theorem matches_ofWindowSize (w : ℕ) :
    Matches (ofWindowSize w : RollingMeanAccumulator (SignedInt W)) (ofWindowSize w) where
  buffer := ⟨List.replicate w 0, by rw [List.map_replicate]; rfl,
    by simp [ofWindowSize, integers]⟩
  nextInsert := rfl
  bufferFilled := rfl

variable {acc : RollingMeanAccumulator (SignedInt W)} {exact : RollingMeanAccumulator ℤ}

theorem Matches.length_buffer (h : Matches acc exact) :
    acc.buffer.length = exact.buffer.length := by
  obtain ⟨bs, hacc, hexact⟩ := h.buffer
  simp [hacc, hexact, integers]

theorem Matches.validDataCount (h : Matches acc exact) :
    acc.validDataCount = exact.validDataCount := by
  rw [RollingMeanAccumulator.validDataCount, RollingMeanAccumulator.validDataCount,
    h.length_buffer, h.nextInsert, h.bufferFilled]

/-- **One value keeps both accumulators alike**: they overwrite the same value. -/
theorem Matches.accumulate (h : Matches acc exact) {exact' : RollingMeanAccumulator ℤ}
    {v : BitVec W} (hexact : exact.accumulate v.toInt = some exact') :
    ∃ acc' old, exact.buffer[exact.nextInsert]? = some (BitVec.toInt old) ∧
      acc.accumulate (.value v) = some acc' ∧ Matches acc' exact' ∧
      acc'.sum = acc.sum - .value old + .value v := by
  obtain ⟨bs, hbs, hbs'⟩ := h.buffer
  have hslot : exact.buffer[exact.nextInsert]? = bs[exact.nextInsert]?.map BitVec.toInt := by
    rw [hbs', integers, List.getElem?_map]
  have hslot' : acc.buffer[acc.nextInsert]? = bs[exact.nextInsert]?.map SignedInt.value := by
    rw [hbs, h.nextInsert, List.getElem?_map]
  cases hold : bs[exact.nextInsert]? with
  | none =>
    rw [RollingMeanAccumulator.accumulate, hslot, hold] at hexact
    cases hexact
  | some old =>
    rw [hold, Option.map_some] at hslot hslot'
    rw [RollingMeanAccumulator.accumulate, hslot] at hexact
    cases hexact
    refine ⟨_, old, hslot, by rw [RollingMeanAccumulator.accumulate, hslot'], ?_, rfl⟩
    exact {
      buffer := ⟨bs.set exact.nextInsert v, by simp [hbs, h.nextInsert, List.map_set],
        by simp [hbs', integers, List.map_set]⟩
      nextInsert := by simp [h.nextInsert, h.length_buffer]
      bufferFilled := by simp [h.nextInsert, h.length_buffer, h.bufferFilled] }

/-- **The running sum of a run** is the window sum, as long as no difference overflows. -/
theorem exists_accumulateAll_matches (hW : 0 < W) (hw : 1 ≤ w) (hsum : WindowSumsFit W w xs) :
    ∃ acc exact, (ofWindowSize w).accumulateAll (xs.map SignedInt.value) = some acc ∧
      Holds exact w (integers xs) ∧ Matches acc exact ∧
      acc.sum =
        if DifferencesFit W w xs then SignedInt.ofInt (windowSum w xs) else .undefined := by
  induction xs using List.reverseRecOn with
  | nil =>
    refine ⟨_, _, rfl, Holds.ofWindowSize hw, matches_ofWindowSize w, ?_⟩
    rw [if_pos differencesFit_nil, windowSum_nil]
    rfl
  | append_singleton xs v ih =>
    obtain ⟨hsums, hfits⟩ := windowSumsFit_concat.mp hsum
    obtain ⟨acc, exact, hacc, hholds, hmatches, hsum⟩ := ih hsums
    obtain ⟨exact', hexact', hholds'⟩ := hholds.accumulate hw v.toInt
    obtain ⟨acc', old, hold, hacc', hmatches', hsum'⟩ := hmatches.accumulate hexact'
    refine ⟨acc', exact', ?_, by rwa [integers_concat], hmatches', ?_⟩
    · rw [List.map_append]
      exact (accumulateAll_concat hacc _).trans hacc'
    · -- without the overwritten value, the sum is that of one value less
      have hsub : windowSum w xs - old.toInt = windowSum (w - 1) xs := by
        rw [windowSum, ← hholds.sum_eq, hholds.sum_sub_eq hw hold, windowSum]
      rw [windowSum_concat hw, ← hsub] at hfits ⊢
      rw [hsum', hsum]
      simp only [differencesFit_concat, ← hsub]
      by_cases hdiff : DifferencesFit W w xs
      · simp only [hdiff, true_and, if_true]
        exact SignedInt.sub_add_ofInt hW hsums.fits old v hfits
      · simp [hdiff]

/-- **When the mean is exact**: no difference overflows, and the last window sum is not negative,
or the unsigned quotient is converted back to the exact one. -/
theorem meanIsExact_iff (hW : 0 < W) (hW' : W ≤ 64) (hw : 1 ≤ w) (hxs : xs ≠ [])
    (hsum : WindowSumsFit W w xs) :
    MeanIsExact W w xs ↔
      DifferencesFit W w xs ∧
        (0 ≤ windowSum w xs ∨
          2 ^ W ∣ (2 ^ 64 - (windowSum w xs).natAbs % min xs.length w) / min xs.length w) := by
  obtain ⟨acc, exact, hacc, hholds, hmatches, hsum'⟩ := exists_accumulateAll_matches hW hw hsum
  have hcount : acc.validDataCount = min xs.length w := by
    rw [hmatches.validDataCount, hholds.validDataCount, integers, List.length_map]
  have hpos : 0 < min xs.length w := lt_min (List.length_pos_iff.mpr hxs) hw
  have hmean : acc.getRollingMean SignedInt.divSize =
      some (SignedInt.divSize acc.sum (min xs.length w)) := by
    rw [getRollingMean, hcount, if_pos hpos]
  have hexact : MeanIsExact W w xs ↔
      ∃ r, SignedInt.divSize acc.sum (min xs.length w) = .value r ∧
        r.toInt = (windowSum w xs).tdiv (min xs.length w : ℕ) := by
    simp only [MeanIsExact, hacc, Option.some.injEq, exists_and_left, exists_eq_left', hmean]
  rw [hexact, hsum']
  by_cases hdiff : DifferencesFit W w xs
  · simpa only [hdiff, if_true, true_and] using SignedInt.divSize_eq_iff hW hW' hsum.fits hpos
  · simp [hdiff, SignedInt.divSize]

/-- The mean of the last two of three values. -/
theorem meanIsExact_iff_three : MeanIsExact 32 2 [7, -3, (5 : BitVec 32)] :=
  (meanIsExact_iff (by decide) (by decide) (by decide) (by decide) (by decide)).mpr (by decide)

/-- The mean of three times minus one is a third of the largest unsigned value. -/
theorem not_meanIsExact_neg :
    WindowSumsFit 32 3 [-1, -1, (-1 : BitVec 32)] ∧
      ¬MeanIsExact 32 3 [-1, -1, (-1 : BitVec 32)] := by
  refine ⟨by decide, ?_⟩
  rintro ⟨acc, r, hacc, hmean, hr⟩
  have hrun : ((ofWindowSize 3).accumulateAll ([-1, -1, (-1 : BitVec 32)].map SignedInt.value)).bind
      (getRollingMean SignedInt.divSize) = some (.value 1431655764) := by
    decide
  rw [hacc, Option.bind_some, hmean] at hrun
  cases hrun
  revert hr
  decide

end RollingMeanAccumulator

end RcppUtils
