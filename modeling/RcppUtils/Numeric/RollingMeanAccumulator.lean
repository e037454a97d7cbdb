import Mathlib.Algebra.Field.Rat
import Mathlib.Tactic.NormNum
import RcppUtils.Numeric.RingBuffer

/-!
# The rolling mean accumulator

The accumulator keeps the last values in a buffer that it overwrites in turn, with their sum and
a flag that is set when the buffer is first full.

## Main definitions

* `RollingMeanAccumulator`: the class, over any type of values
* `RollingMeanAccumulator.Counts acc w n`: the index, the flag and the size of the buffer after
  `n` values
* `RollingMeanAccumulator.IsSafe w xs`: no access or division of a run is undefined
* `RollingMeanAccumulator.Holds acc w xs`: the accumulator of window size `w` after the values
  `xs`

## Main results

* `RollingMeanAccumulator.Counts.accumulate`, `RollingMeanAccumulator.Holds.accumulate`: one value
  keeps the invariants
* `RollingMeanAccumulator.isSafe_iff`: a run is safe when the window is not empty
* `RollingMeanAccumulator.getRollingMean_eq`: the mean is that of the last values
-/

namespace RcppUtils

/-- `RollingMeanAccumulator<T>`. -/
structure RollingMeanAccumulator (T : Type) where
  buffer : List T
  nextInsert : ℕ
  sum : T
  bufferFilled : Bool

namespace RollingMeanAccumulator

variable {T : Type}

section Class

/-- The constructor. -/
def ofWindowSize [Zero T] (rollingWindowSize : ℕ) : RollingMeanAccumulator T where
  buffer := List.replicate rollingWindowSize 0
  nextInsert := 0
  sum := 0
  bufferFilled := false

/-- `accumulate(val)`, or `none` when it reads outside the buffer. The modulus of the last
statement is not zero then. -/
def accumulate [Add T] [Sub T] (acc : RollingMeanAccumulator T) (val : T) :
    Option (RollingMeanAccumulator T) :=
  match acc.buffer[acc.nextInsert]? with
  | none => none
  | some old =>
    some {
      buffer := acc.buffer.set acc.nextInsert val
      nextInsert := (acc.nextInsert + 1) % acc.buffer.length
      sum := acc.sum - old + val
      bufferFilled := acc.bufferFilled || decide (acc.buffer.length ≤ acc.nextInsert + 1) }

/-- The values passed to `accumulate` in order. -/
def accumulateAll [Add T] [Sub T] (acc : RollingMeanAccumulator T) (vals : List T) :
    Option (RollingMeanAccumulator T) :=
  vals.foldlM accumulate acc

/-- The number of values in the buffer that were accumulated. -/
def validDataCount (acc : RollingMeanAccumulator T) : ℕ :=
  acc.bufferFilled.toNat * acc.buffer.length + (!acc.bufferFilled).toNat * acc.nextInsert

/-- `getRollingMean()`, or `none` when its assertion fails; `divCount` divides a value of `T` by
one of `size_t`. -/
def getRollingMean (divCount : T → ℕ → T) (acc : RollingMeanAccumulator T) : Option T :=
  if 0 < acc.validDataCount then some (divCount acc.sum acc.validDataCount) else none

/-- The division by a count in a field. -/
def exactDiv [Field T] (s : T) (n : ℕ) : T := s / n

end Class

/-! ## Runs -/

section Runs

variable [Add T] [Sub T] {acc acc' : RollingMeanAccumulator T} {w : ℕ} {xs : List T}

theorem accumulateAll_concat (h : acc.accumulateAll xs = some acc') (v : T) :
    acc.accumulateAll (xs ++ [v]) = acc'.accumulate v := by
  rw [accumulateAll] at h
  rw [accumulateAll, List.foldlM_append, h]
  exact bind_pure (acc'.accumulate v)

/-- An invariant of the values so far that the constructor establishes and one value keeps holds
after every run. -/
theorem exists_accumulateAll_of [Zero T] (P : RollingMeanAccumulator T → List T → Prop)
    (hnil : P (ofWindowSize w) [])
    (hstep : ∀ {acc ys}, P acc ys → ∀ v, ∃ acc', acc.accumulate v = some acc' ∧ P acc' (ys ++ [v]))
    (xs : List T) : ∃ acc, (ofWindowSize w).accumulateAll xs = some acc ∧ P acc xs := by
  induction xs using List.reverseRecOn with
  | nil => exact ⟨_, rfl, hnil⟩
  | append_singleton xs v ih =>
    obtain ⟨acc, hacc, h⟩ := ih
    obtain ⟨acc', hacc', h'⟩ := hstep h v
    exact ⟨acc', (accumulateAll_concat hacc v).trans hacc', h'⟩

end Runs

/-! ## Indices and counts -/

section Counts

/-- The state after `n` values, but for the values: the index runs around the buffer, and the flag
is set from the first time it was full. -/
structure Counts (acc : RollingMeanAccumulator T) (w n : ℕ) : Prop where
  length : acc.buffer.length = w
  nextInsert : acc.nextInsert = n % w
  bufferFilled : acc.bufferFilled = decide (w ≤ n)

/-- `accumulate(val)` reads and writes inside the buffer, and takes a remainder by a size that is
not zero. Then the next index is inside the buffer, and `getRollingMean()` divides by a count
between one and the window size. -/
structure SafeCall [Add T] [Sub T] (acc : RollingMeanAccumulator T) (w : ℕ) (val : T) : Prop where
  inRange : acc.nextInsert < acc.buffer.length
  modulus : acc.buffer.length ≠ 0
  next : ∃ acc', acc.accumulate val = some acc' ∧ acc'.nextInsert < acc'.buffer.length ∧
    1 ≤ acc'.validDataCount ∧ acc'.validDataCount ≤ w ∧
    ∀ divCount, acc'.getRollingMean divCount = some (divCount acc'.sum acc'.validDataCount)

/-- Every call of `accumulate` is safe, in the run over the values `xs`. -/
def IsSafe [Zero T] [Add T] [Sub T] (w : ℕ) (xs : List T) : Prop :=
  ∀ ys v, ys ++ [v] <+: xs →
    ∃ acc, (ofWindowSize w).accumulateAll ys = some acc ∧ acc.SafeCall w v

variable {acc : RollingMeanAccumulator T} {w n : ℕ}

theorem Counts.ofWindowSize [Zero T] (hw : 0 < w) :
    Counts (ofWindowSize w : RollingMeanAccumulator T) w 0 where
  length := List.length_replicate
  nextInsert := (Nat.zero_mod w).symm
  bufferFilled := (decide_eq_false hw.not_ge).symm

theorem Counts.nextInsert_lt (h : Counts acc w n) (hw : 0 < w) :
    acc.nextInsert < acc.buffer.length := by
  rw [h.length, h.nextInsert]
  exact Nat.mod_lt n hw

/-- The count is right, wrapped or not. -/
theorem Counts.validDataCount (h : Counts acc w n) : acc.validDataCount = min n w := by
  rw [RollingMeanAccumulator.validDataCount, h.bufferFilled, h.length, h.nextInsert]
  rcases lt_or_ge n w with hn | hn
  · simp [hn.not_ge, Nat.mod_eq_of_lt hn, hn.le]
  · simp [hn]

/-- After the first value, the assertion holds. -/
theorem Counts.getRollingMean (h : Counts acc w n) (hw : 0 < w) (hn : 0 < n)
    (divCount : T → ℕ → T) :
    acc.getRollingMean divCount = some (divCount acc.sum (min n w)) := by
  rw [RollingMeanAccumulator.getRollingMean, h.validDataCount, if_pos (lt_min hn hw)]

variable [Add T] [Sub T]

/-- **One value keeps the counts.** -/
theorem Counts.accumulate (h : Counts acc w n) (hw : 0 < w) (v : T) :
    ∃ acc', acc.accumulate v = some acc' ∧ Counts acc' w (n + 1) := by
  obtain ⟨old, hold⟩ : ∃ old, acc.buffer[acc.nextInsert]? = some old :=
    ⟨_, List.getElem?_eq_getElem (h.nextInsert_lt hw)⟩
  refine ⟨_, by rw [RollingMeanAccumulator.accumulate, hold], ?_, ?_, ?_⟩
  · rw [List.length_set, h.length]
  · rw [h.length, h.nextInsert, Nat.mod_add_mod]
  · -- the flag is set at the wrap, and stays set
    rw [h.bufferFilled, h.length, h.nextInsert]
    rcases lt_or_ge n w with hn | hn
    · simp [Nat.mod_eq_of_lt hn, hn.not_ge]
    · simp [hn, hn.trans (Nat.le_succ _)]

/-- Every run from the constructor keeps the counts. -/
theorem exists_counts [Zero T] (hw : 0 < w) (xs : List T) :
    ∃ acc, (ofWindowSize w).accumulateAll xs = some acc ∧ Counts acc w xs.length := by
  refine exists_accumulateAll_of (fun acc xs => Counts acc w xs.length) (Counts.ofWindowSize hw)
    ?_ xs
  intro acc ys h v
  rw [List.length_append]
  exact h.accumulate hw v

theorem Counts.safeCall (h : Counts acc w n) (hw : 0 < w) (v : T) : acc.SafeCall w v := by
  obtain ⟨acc', hacc', h'⟩ := h.accumulate hw v
  have hcount := h'.validDataCount
  have hlt := h.nextInsert_lt hw
  refine ⟨hlt, (Nat.zero_le _).trans_lt hlt |>.ne', acc', hacc', h'.nextInsert_lt hw, ?_, ?_, ?_⟩
  · rw [hcount]
    exact le_min (Nat.succ_pos n) hw
  · rw [hcount]
    exact min_le_right _ _
  · intro divCount
    rw [h'.getRollingMean hw (Nat.succ_pos n), hcount]

/-- **When all accesses and divisions are safe**: in a run over any values, exactly when the window
is not empty. -/
theorem isSafe_iff [Zero T] {xs : List T} (hxs : xs ≠ []) : IsSafe w xs ↔ 1 ≤ w := by
  constructor
  · intro h
    obtain ⟨v, xs, rfl⟩ := List.exists_cons_of_ne_nil hxs
    obtain ⟨acc, hacc, hsafe⟩ := h [] v (List.prefix_append [v] xs)
    obtain rfl := Option.some_inj.mp hacc
    have hlt : 0 < (List.replicate w (0 : T)).length := hsafe.inRange
    rwa [List.length_replicate] at hlt
  · intro hw ys v _
    obtain ⟨acc, hacc, h⟩ := exists_counts hw ys
    exact ⟨acc, hacc, h.safeCall hw v⟩

/-- A run around a window of two. -/
theorem isSafe_iff_five : IsSafe 2 [1, 5, 2, 4, (8 : ℤ)] :=
  (isSafe_iff (by decide)).mpr (by decide)

/-- The first value is written behind an empty window. -/
theorem not_isSafe_zero : ¬IsSafe 0 [(1 : ℤ)] := by
  intro h
  obtain ⟨acc, hacc, hsafe⟩ := h [] 1 List.prefix_rfl
  obtain rfl := Option.some_inj.mp hacc
  exact hsafe.modulus rfl

end Counts

/-! ## The invariant -/

section Invariant

variable [AddCommGroup T]

/-- The state after the values `xs`: the buffer, read from the next slot to be overwritten,
holds the last `w` values of `xs` behind `w` zeros. -/
structure Holds (acc : RollingMeanAccumulator T) (w : ℕ) (xs : List T) : Prop where
  length : acc.buffer.length = w
  nextInsert : acc.nextInsert = xs.length % w
  bufferFilled : acc.bufferFilled = decide (w ≤ xs.length)
  sum : acc.sum = acc.buffer.sum
  contents : RingBuffer.contents acc.buffer acc.nextInsert = (List.replicate w 0 ++ xs).rtake w

theorem Holds.counts {acc : RollingMeanAccumulator T} {w : ℕ} {xs : List T} (h : Holds acc w xs) :
    Counts acc w xs.length :=
  ⟨h.length, h.nextInsert, h.bufferFilled⟩

theorem Holds.ofWindowSize {w : ℕ} (hw : 0 < w) : Holds (ofWindowSize w : RollingMeanAccumulator T)
    w [] where
  length := (Counts.ofWindowSize hw).length
  nextInsert := (Counts.ofWindowSize hw).nextInsert
  bufferFilled := (Counts.ofWindowSize hw).bufferFilled
  sum := by simp [RollingMeanAccumulator.ofWindowSize]
  contents := by simp [RollingMeanAccumulator.ofWindowSize, RingBuffer.contents, List.rtake]

/-- **One value keeps the invariant.** -/
theorem Holds.accumulate {acc : RollingMeanAccumulator T} {w : ℕ} (hw : 0 < w) {xs : List T}
    (h : Holds acc w xs) (v : T) :
    ∃ acc', acc.accumulate v = some acc' ∧ Holds acc' w (xs ++ [v]) := by
  obtain ⟨acc', hacc', hcounts⟩ := h.counts.accumulate hw v
  have hlt := h.counts.nextInsert_lt hw
  have hold : acc.buffer[acc.nextInsert]? = some acc.buffer[acc.nextInsert] :=
    List.getElem?_eq_getElem hlt
  refine ⟨acc', hacc', ?_⟩
  rw [← List.length_concat (a := v), List.concat_eq_append] at hcounts
  rw [RollingMeanAccumulator.accumulate, hold] at hacc'
  obtain rfl := Option.some_inj.mp hacc'
  refine ⟨hcounts.length, hcounts.nextInsert, hcounts.bufferFilled, ?_, ?_⟩
  · rw [RingBuffer.sum_set hold, h.sum]
  · -- the index wraps, and the buffer is read from it
    have hmod := RingBuffer.contents_mod (acc.buffer.set acc.nextInsert v) (acc.nextInsert + 1)
    rw [List.length_set] at hmod
    rw [hmod, RingBuffer.contents_set hlt, h.contents, ← List.append_assoc,
      RingBuffer.rtake_concat_of_le hw (by simp)]

/-- Every run from the constructor ends in a state of the invariant. -/
theorem exists_accumulateAll {w : ℕ} (hw : 0 < w) (xs : List T) :
    ∃ acc, (ofWindowSize w).accumulateAll xs = some acc ∧ Holds acc w xs :=
  exists_accumulateAll_of (fun acc xs => Holds acc w xs) (Holds.ofWindowSize hw)
    (fun h => h.accumulate hw) xs

variable {acc : RollingMeanAccumulator T} {w : ℕ} {xs : List T} (h : Holds acc w xs)

include h

theorem Holds.validDataCount : acc.validDataCount = min xs.length w :=
  h.counts.validDataCount

/-- The running sum is the sum of the last values. -/
theorem Holds.sum_eq : acc.sum = (xs.rtake w).sum := by
  rw [h.sum, ← RingBuffer.sum_contents acc.buffer acc.nextInsert, h.contents,
    RingBuffer.rtake_append]
  simp [List.rtake]

/-- Without the value that is overwritten next, it is the sum of one value less. -/
theorem Holds.sum_sub_eq (hw : 0 < w) {old : T} (hold : acc.buffer[acc.nextInsert]? = some old) :
    acc.sum - old = (xs.rtake (w - 1)).sum := by
  have hlen : w ≤ (List.replicate w (0 : T) ++ xs).length := by simp
  have hcontents := RingBuffer.contents_eq_cons hold
  rw [h.contents, RingBuffer.tail_rtake hw hlen] at hcontents
  rw [h.sum, ← RingBuffer.sum_contents acc.buffer acc.nextInsert, h.contents, hcontents,
    List.sum_cons, add_sub_cancel_left, RingBuffer.rtake_append]
  simp [List.rtake]

end Invariant

/-- **The rolling mean is the mean of the last values**: after a non-empty sequence, the sum of
its last `w` values, or of all when there are fewer, over their number. The running sum is the
sum of the buffer, and what was accumulated before the last `w` values does not matter. -/
theorem getRollingMean_eq {T : Type} [Field T] {w : ℕ} (hw : 1 ≤ w) {xs : List T}
    (hxs : xs ≠ []) :
    ∃ acc, (ofWindowSize w).accumulateAll xs = some acc ∧
      acc.getRollingMean exactDiv =
        some ((xs.rtake w).sum / (min xs.length w : ℕ)) ∧
      acc.sum = acc.buffer.sum ∧
      ∀ older : List T, w ≤ xs.length → ∃ acc',
        (ofWindowSize w).accumulateAll (older ++ xs) = some acc' ∧
        acc'.getRollingMean exactDiv = acc.getRollingMean exactDiv := by
  -- the mean after any sequence that is not empty
  have mean : ∀ {acc : RollingMeanAccumulator T} {ys : List T}, Holds acc w ys → ys ≠ [] →
      acc.getRollingMean exactDiv =
        some ((ys.rtake w).sum / (min ys.length w : ℕ)) := by
    intro acc ys h hys
    rw [h.counts.getRollingMean hw (List.length_pos_iff.mpr hys), h.sum_eq, exactDiv]
  obtain ⟨acc, hacc, h⟩ := exists_accumulateAll hw xs
  refine ⟨acc, hacc, mean h hxs, h.sum, ?_⟩
  intro older hlen
  obtain ⟨acc', hacc', h'⟩ := exists_accumulateAll hw (older ++ xs)
  refine ⟨acc', hacc', ?_⟩
  rw [mean h' (by simp [hxs]), mean h hxs, RingBuffer.rtake_append, Nat.sub_eq_zero_of_le hlen,
    List.rtake_zero, List.nil_append, List.length_append, Nat.min_eq_right hlen,
    Nat.min_eq_right (by omega)]

/-- After five values in a window of two, the mean is that of the last two. -/
theorem getRollingMean_eq_five :
    ∃ acc, (ofWindowSize 2).accumulateAll [1, 5, 2, 4, (8 : ℚ)] = some acc ∧
      acc.getRollingMean exactDiv = some 6 := by
  obtain ⟨acc, hacc, hmean, -⟩ :=
    getRollingMean_eq (by decide : 1 ≤ 2) (List.cons_ne_nil 1 [5, 2, 4, (8 : ℚ)])
  exact ⟨acc, hacc, hmean.trans (by norm_num [List.rtake])⟩

end RollingMeanAccumulator

end RcppUtils
