import RcppUtils.Numeric.Rounding
import RcppUtils.Program.Exception

/-!
# Conversion to nanoseconds

`convert_to_nanoseconds` compares a duration with the limits of `std::chrono::nanoseconds` in
double precision, and then converts it in integers of 64 bits. All values of the comparison are
integers, so a double is an integer that is rounded to 53 significant bits.

## Main definitions

* `Duration k`: a count of periods of `k` nanoseconds
* `convertToNanoseconds`: the conversion; a product that overflows has no value
* `RejectsExactly time`: the durations that are rejected are those that cannot be represented

## Main results

* `convertToNanoseconds_eq_error_iff`: what is rejected
* `rejectsExactly_iff`: where this agrees with what cannot be represented
-/

namespace RcppUtils

/-- The value of an integer converted to `double`. -/
def toDouble (n : ℤ) : ℤ := Rounding.round 53 n

/-- `std::chrono::duration` with a 64-bit count, for a period of `k` nanoseconds. -/
structure Duration (k : ℕ) where
  count : Int64

namespace Duration

variable {k : ℕ}

/-- `std::chrono::duration_cast` to nanoseconds in `double`, which is also the conversion in a
comparison with such a duration. -/
def inDouble (time : Duration k) : ℤ := toDouble (toDouble time.count.toInt * toDouble k)

/-- The duration in nanoseconds. -/
def nanoseconds (time : Duration k) : ℤ := time.count.toInt * k

/-- The duration can be represented by `std::chrono::nanoseconds`. -/
def Representable (time : Duration k) : Prop :=
  -2 ^ 63 ≤ time.nanoseconds ∧ time.nanoseconds ≤ 2 ^ 63 - 1

instance (time : Duration k) : Decidable time.Representable :=
  inferInstanceAs (Decidable (_ ∧ _))

/-- `std::chrono::duration_cast<std::chrono::nanoseconds>`: a product of 64-bit integers, which
is undefined when it overflows. -/
def cast (time : Duration k) : Option (Duration 1) :=
  if time.Representable then some ⟨Int64.ofInt time.nanoseconds⟩ else none

end Duration

/-- `ns_max_as_double`. -/
def nsMaxAsDouble : ℤ := Duration.inDouble (k := 1) ⟨Int64.maxValue⟩

/-- `ns_min_as_double`. -/
def nsMinAsDouble : ℤ := Duration.inDouble (k := 1) ⟨Int64.minValue⟩

/-- `convert_to_nanoseconds(time)`. -/
def convertToNanoseconds {k : ℕ} (time : Duration k) :
    Except StdException (Option (Duration 1)) :=
  if time.inDouble > nsMaxAsDouble then
    .error (.invalidArgument "time must be less than std::chrono::nanoseconds::max()")
  else if time.inDouble < nsMinAsDouble then
    .error (.invalidArgument "time must be bigger than std::chrono::nanoseconds::min()")
  else .ok time.cast

theorem nsMaxAsDouble_eq : nsMaxAsDouble = 2 ^ 63 := by
  decide

theorem nsMinAsDouble_eq : nsMinAsDouble = -2 ^ 63 := by
  decide

variable {k : ℕ}

/-! ## The comparison in double precision -/

/-- A conversion rejects a duration in one of two ways. -/
theorem exists_eq_error_iff {time : Duration k} :
    (∃ what, convertToNanoseconds time = .error (.invalidArgument what)) ↔
      2 ^ 63 < time.inDouble.natAbs := by
  rw [convertToNanoseconds, nsMaxAsDouble_eq, nsMinAsDouble_eq]
  split_ifs with hmax hmin
  · exact iff_of_true ⟨_, rfl⟩ (by omega)
  · exact iff_of_true ⟨_, rfl⟩ (by omega)
  · exact iff_of_false (by simp) (by omega)

/-- A duration that is not rejected is converted. -/
theorem convertToNanoseconds_of_le {time : Duration k} (h : time.inDouble.natAbs ≤ 2 ^ 63) :
    convertToNanoseconds time = .ok time.cast := by
  rw [convertToNanoseconds, nsMaxAsDouble_eq, nsMinAsDouble_eq, if_neg (by omega),
    if_neg (by omega)]

/-- A period below `2 ^ 53` nanoseconds is exact, and only the count and the product are
rounded. -/
theorem inDouble_eq (hk : k < 2 ^ 53) (time : Duration k) :
    time.inDouble = toDouble (toDouble time.count.toInt * k) := by
  have hperiod : toDouble k = k := Rounding.round_of_lt (by decide) (by simpa using hk)
  rw [Duration.inDouble, hperiod]

/-- **What is rejected**: the rounded count times the period has to exceed the limit by half the
distance of two doubles. -/
theorem convertToNanoseconds_eq_error_iff (hk : k < 2 ^ 53) (time : Duration k) :
    (∃ what, convertToNanoseconds time = .error (.invalidArgument what)) ↔
      2 ^ 63 + 2 ^ 10 < (toDouble time.count.toInt * k).natAbs := by
  have hround := Rounding.natAbs_round_le_two_pow_iff (p := 53) (m := 63)
    (z := toDouble time.count.toInt * k) (by decide) (by decide)
  rw [exists_eq_error_iff, inDouble_eq hk, ← not_le, ← not_le]
  exact not_congr hround

/-- A duration that can be represented is not rejected: rounding the count changes it by less
than that. -/
theorem natAbs_toDouble_mul_le {time : Duration k} (h : time.Representable) :
    (toDouble time.count.toInt * k).natAbs ≤ 2 ^ 63 + 2 ^ 10 := by
  have habs : time.count.toInt.natAbs * k ≤ 2 ^ 63 := by
    have hmul : time.nanoseconds.natAbs = time.count.toInt.natAbs * k := by
      rw [Duration.nanoseconds, Int.natAbs_mul, Int.natAbs_natCast]
    have hlow := h.1
    have hhigh := h.2
    omega
  have herror := Nat.mul_le_mul_right k
    (Rounding.two_pow_mul_roundNat_le (p := 53) (by decide) time.count.toInt.natAbs)
  rw [Nat.mul_assoc, Nat.mul_assoc] at herror
  rw [Int.natAbs_mul, Int.natAbs_natCast, toDouble, Rounding.natAbs_round (by decide)]
  omega

/-- A duration that can be represented is multiplied out. -/
theorem convertToNanoseconds_of_representable (hk : k < 2 ^ 53) {time : Duration k}
    (h : time.Representable) :
    ∃ ns, convertToNanoseconds time = .ok (some ns) ∧ ns.count.toInt = time.nanoseconds := by
  have hin : time.inDouble.natAbs ≤ 2 ^ 63 := by
    rw [inDouble_eq hk]
    exact (Rounding.natAbs_round_le_two_pow_iff (m := 63) (by decide) (by decide)).mpr
      (natAbs_toDouble_mul_le h)
  refine ⟨⟨Int64.ofInt time.nanoseconds⟩, ?_, ?_⟩
  · rw [convertToNanoseconds_of_le hin, Duration.cast, if_pos h]
  · have hlt : time.nanoseconds < 2 ^ 63 := by
      have := h.2
      omega
    exact Int64.toInt_ofInt_of_le h.1 hlt

/-! ## The durations that are rejected -/

/-- A duration is rejected exactly when it cannot be represented, and otherwise it is converted
exactly. -/
def RejectsExactly (time : Duration k) : Prop :=
  ((∃ what, convertToNanoseconds time = .error (.invalidArgument what)) ↔
      ¬ time.Representable) ∧
    (time.Representable →
      ∃ ns, convertToNanoseconds time = .ok (some ns) ∧ ns.count.toInt = time.nanoseconds)

/-- **Exactly the durations that cannot be represented are rejected, except** those that exceed a
limit by at most half the distance of two doubles, after their count is rounded. -/
theorem rejectsExactly_iff (hk : k < 2 ^ 53) (time : Duration k) :
    RejectsExactly time ↔
      time.Representable ∨ 2 ^ 63 + 2 ^ 10 < (toDouble time.count.toInt * k).natAbs := by
  rw [RejectsExactly, convertToNanoseconds_eq_error_iff hk]
  by_cases h : time.Representable
  · have hle := natAbs_toDouble_mul_le h
    refine iff_of_true ⟨?_, fun _ => convertToNanoseconds_of_representable hk h⟩ (.inl h)
    exact iff_of_false (not_lt.mpr hle) (not_not.mpr h)
  · simp [h]

theorem rejectsExactly_iff_milliseconds :
    RejectsExactly (k := 1000000) ⟨9223372036854⟩ ↔
      Duration.Representable (k := 1000000) ⟨9223372036854⟩ ∨
        2 ^ 63 + 2 ^ 10 < (toDouble (9223372036854 : Int64).toInt * (1000000 : ℕ)).natAbs :=
  rejectsExactly_iff (by decide) _

/-- 9223372036854776 microseconds exceed the limit by 193 nanoseconds, and are not rejected. -/
theorem not_rejectsExactly_microseconds :
    ¬ RejectsExactly (k := 1000) ⟨9223372036854776⟩ := by
  intro h
  obtain ⟨what, hwhat⟩ := h.1.mpr (by decide)
  rw [convertToNanoseconds_of_le (by decide)] at hwhat
  cases hwhat

end RcppUtils
