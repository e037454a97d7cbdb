import RcppUtils.Expected.Execution
import RcppUtils.Program.Machine

/-!
# Lifetimes of values and errors

An object is sound when it holds a member and its flag tells which one. A program keeps its
objects sound as long as it goes on, also where exceptions leave the functions of the class: each
operation either finds all members in order, or the program is over. A program is over when it is
terminated, because a constructor throws inside a function that promises not to, and when it has
lost its meaning, because a handler assigns to a member that was destroyed before the attempt.

## Main definitions

* `Sound`: the sound memories
* `Undefined`, `Terminates`: the operations that lose their meaning or end the program
* `Meets`: what an operation comes to

## Main results

* `exec_meets`: one operation on a sound memory
* `sound_of_run`: the invariant over whole runs
* `everyState_defined_iff`, `everyState_not_terminates_iff`: the exact conditions
-/

namespace RcppUtils

namespace Tl

open Exceptional

variable {α ε : Type}

/-- The object that holds `c`. -/
def Expected.ofContent (c : Except ε α) : Expected α ε := ⟨some c, c.isOk⟩

@[simp] theorem Expected.ofContent_ok (v : α) :
    (ofContent (.ok v) : Expected α ε) = ⟨some (.ok v), true⟩ :=
  rfl

@[simp] theorem Expected.ofContent_error (e : ε) :
    (ofContent (.error e) : Expected α ε) = ⟨some (.error e), false⟩ :=
  rfl

/-- Each living object holds the member that its flag tells, and all members that were constructed
are destroyed or live, except for `n`. -/
structure Sound (s : Memory α ε) (n : ℕ) : Prop where
  held : ∀ k x, s.get? k = some x → ∃ c, x = Expected.ofContent c
  balance : s.constructed = s.destroyed + s.living + n

namespace Sound

variable {s t : Memory α ε} {n m i : ℕ}

theorem get (hs : Sound s n) (hi : Lives s i) : ∃ c, s.get? i = some (Expected.ofContent c) := by
  obtain ⟨x, hx⟩ := Option.isSome_iff_exists.mp hi
  obtain ⟨c, rfl⟩ := hs.held i x hx
  exact ⟨c, hx⟩

@[simp] theorem called_iff : Sound s.called n ↔ Sound s n :=
  ⟨fun h => ⟨h.held, h.balance⟩, fun h => ⟨h.held, h.balance⟩⟩

@[simp] theorem born_iff : Sound s.born (n + 1) ↔ Sound s n :=
  ⟨fun h => ⟨h.held, Nat.succ.inj h.balance⟩, fun h => ⟨h.held, congrArg Nat.succ h.balance⟩⟩

@[simp] theorem died_iff : Sound s.died n ↔ Sound s (n + 1) := by
  have hcount : s.destroyed + 1 + s.living + n = s.destroyed + s.living + (n + 1) := by omega
  exact ⟨fun h => ⟨h.held, h.balance.trans hcount⟩, fun h => ⟨h.held, h.balance.trans hcount.symm⟩⟩

/-- An object takes a content. -/
theorem put (hs : Sound s n) (hi : (s.get? i).isSome) (c : Except ε α) :
    Sound (s.put i (Expected.ofContent c)) n where
  held k x hx := by
    rw [Memory.get?_put _ hi] at hx
    split_ifs at hx
    · exact ⟨c, (Option.some_inj.mp hx).symm⟩
    · exact hs.held k x hx
  balance := by
    rw [Memory.living_put _ hi]
    exact hs.balance

@[simp] theorem put_ok (hs : Sound s n) (hi : (s.get? i).isSome) (v : α) :
    Sound (s.put i ⟨some (.ok v), true⟩) n :=
  hs.put hi (.ok v)

@[simp] theorem put_error (hs : Sound s n) (hi : (s.get? i).isSome) (e : ε) :
    Sound (s.put i ⟨some (.error e), false⟩) n :=
  hs.put hi (.error e)

/-- A new object. -/
theorem allocate (hs : Sound s (n + 1)) (c : Except ε α) :
    Sound (s.allocate (Expected.ofContent c)) n where
  held k x hx := by
    rw [Memory.get?_allocate] at hx
    split_ifs at hx
    · exact ⟨c, (Option.some_inj.mp hx).symm⟩
    · exact hs.held k x hx
  balance := by
    have := hs.balance
    rw [Memory.living_allocate]
    change s.constructed = s.destroyed + _ + _
    omega

@[simp] theorem allocate_ok (hs : Sound s (n + 1)) (v : α) :
    Sound (s.allocate ⟨some (.ok v), true⟩) n :=
  hs.allocate (.ok v)

@[simp] theorem allocate_error (hs : Sound s (n + 1)) (e : ε) :
    Sound (s.allocate ⟨some (.error e), false⟩) n :=
  hs.allocate (.error e)

/-- The end of an object, whose member is destroyed. -/
@[simp] theorem deallocate (hs : Sound s n) (hi : (s.get? i).isSome) (x : Expected α ε) :
    Sound (s.died.deallocate i x) n where
  held k y hy := by
    have hget := Memory.get?_deallocate (s := s.died) k x hi
    rw [hget] at hy
    split_ifs at hy
    exact hs.held k y hy
  balance := by
    have := hs.balance
    have hliving : (s.died.deallocate i x).living + 1 = s.living := Memory.living_deallocate x hi
    change s.constructed = s.destroyed + 1 + _ + _
    omega

end Sound

/-- The member of the union that lives in the objects whose flag is `b`. -/
structure UnionMember.IsMember {τ : Type} (u : UnionMember α ε τ) (b : Bool) : Prop where
  project_inject : ∀ v, u.project (u.inject v) = some v
  isOk_inject : ∀ v, (u.inject v).isOk = b

theorem Types.isMember_val (X : Types α ε) : X.val.IsMember true := ⟨fun _ => rfl, fun _ => rfl⟩

theorem Types.isMember_err (X : Types α ε) : X.err.IsMember false := ⟨fun _ => rfl, fun _ => rfl⟩

/-- An object takes a content of the type that its flag tells. -/
theorem UnionMember.IsMember.sound_put {τ : Type} {u : UnionMember α ε τ} {b : Bool}
    (hu : u.IsMember b) {s : Memory α ε} {n i : ℕ} (hs : Sound s n) (hi : (s.get? i).isSome)
    (v : τ) : Sound (s.put i ⟨some (u.inject v), b⟩) n := by
  have hput := hs.put hi (u.inject v)
  rwa [Expected.ofContent, hu.isOk_inject] at hput

/-- The same objects live, each with the member that it had. -/
def SameMembers (s t : Memory α ε) : Prop :=
  ∀ k, (t.get? k).map Expected.hasVal = (s.get? k).map Expected.hasVal

namespace SameMembers

variable {s t : Memory α ε} {i : ℕ}

@[simp] theorem refl : SameMembers s s := fun _ => rfl

@[simp] theorem called_iff : SameMembers s t.called ↔ SameMembers s t := Iff.rfl

@[simp] theorem born_iff : SameMembers s t.born ↔ SameMembers s t := Iff.rfl

@[simp] theorem died_iff : SameMembers s t.died ↔ SameMembers s t := Iff.rfl

@[simp] theorem put (h : SameMembers s t) (hi : (t.get? i).isSome) {x : Expected α ε}
    (hx : (s.get? i).map Expected.hasVal = some x.hasVal) : SameMembers s (t.put i x) := by
  intro k
  rw [Memory.get?_put _ hi]
  split_ifs with hk
  · rw [hk]
    exact hx.symm
  · exact h k

end SameMembers

/-! ## The conditions -/

section Conditions

variable (X : Types α ε) (s : Memory α ε)

/-- The object `i` has a value. -/
def Has (i : ℕ) : Prop := (s.get? i).any Expected.hasVal = true

instance (i : ℕ) : Decidable (Has s i) := inferInstanceAs (Decidable (_ = true))

/-- The call `k` of a special member function throws. -/
def Throws (nothrow : Bool) (k : ℕ) : Prop := nothrow = false ∧ X.fails k = true

instance (nothrow : Bool) (k : ℕ) : Decidable (Throws X nothrow k) :=
  inferInstanceAs (Decidable (_ ∧ _))

/-- The operation loses its meaning: it reads the member that its object does not hold, or a
constructor throws after the old member was destroyed, and the handler assigns to that one. -/
def Undefined : Op α ε → Prop
  | .assignValue i nothrow _ | .emplace i nothrow _ =>
    ¬ Has s i ∧ ¬ Throws X (X.E.nothrowConstructible .move) s.calls ∧
      Throws X nothrow (s.calls + 1)
  | .swap i j =>
    ¬ (Has s i ↔ Has s j) ∧
      if X.T.nothrowConstructible .move then Throws X (X.E.nothrowConstructible .move) (s.calls + 1)
      else Throws X (X.T.nothrowConstructible .copy) (s.calls + 1)
  | .deref i => ¬ Has s i
  | .error i => Has s i
  | _ => False

/-- The overloads of `assign(rhs)` that are declared `noexcept`. -/
def AssignsNoexcept : Ref → Prop
  | .copy => X.T.nothrowConstructible .copy ∨ X.T.nothrowConstructible .move
  | .move => X.T.nothrowConstructible .move

instance : DecidablePred (AssignsNoexcept X)
  | .copy => inferInstanceAs (Decidable (_ ∨ _))
  | .move => inferInstanceAs (Decidable (_ = true))

/-- The operation ends the program: a call throws inside a function that promises not to. -/
def Terminates : Op α ε → Prop
  | .construct ref j =>
    if Has s j then Throws X (X.T.nothrowConstructible ref) s.calls
    else Throws X (X.E.nothrowConstructible ref) s.calls
  | .convert _ _ => ¬ Throws X false s.calls ∧ Throws X false (s.calls + 1)
  | .assign ref i j =>
    if Has s i then
      if Has s j then AssignsNoexcept X ref ∧ Throws X (X.T.nothrowAssignable ref) s.calls
      else Throws X (X.E.nothrowConstructible ref) s.calls
    else if Has s j then
      -- the error is kept where no constructor of values promises not to throw
      if AssignsNoexcept X ref then Throws X (X.T.nothrowConstructible ref) s.calls
      else ¬ Throws X (X.E.nothrowConstructible .move) s.calls ∧ Throws X false (s.calls + 1)
    else AssignsNoexcept X ref ∧ Throws X (X.E.nothrowAssignable ref) s.calls
  | .assignUnexpected ref i _ =>
    ref = .move ∧ ¬ Has s i ∧ Throws X (X.E.nothrowAssignable .move) s.calls
  | _ => False

end Conditions

/-! ## One operation -/

/-- What a computation that starts with `s` comes to: a sound memory if it returns, with `m` members
more that have no object, and if an exception leaves it, a sound memory where each object has the
member it had. `U` and `T` say when it loses its meaning and when the program is terminated. -/
structure Meets {β : Type} (s : Memory α ε) (n m : ℕ) (U T : Prop)
    (r : Completion β × Memory α ε) : Prop where
  returns : ∀ b, r.1 = .returns b → Sound r.2 (n + m)
  throws : r.1 = .throws → Sound r.2 n ∧ SameMembers s r.2
  undefined : r.1 = .undefined ↔ U
  terminates : r.1 = .terminates ↔ T

namespace Meets

variable {β : Type} {s t : Memory α ε} {n m : ℕ} {U T : Prop}

@[simp] theorem of_returns_iff {b : β} :
    Meets s n m U T (.returns b, t) ↔ Sound t (n + m) ∧ ¬ U ∧ ¬ T := by
  constructor
  · rintro ⟨hreturns, -, hU, hT⟩
    exact ⟨hreturns b rfl, by simpa using hU, by simpa using hT⟩
  · rintro ⟨ht, hU, hT⟩
    exact ⟨fun _ _ => ht, by simp, by simpa using hU, by simpa using hT⟩

@[simp] theorem of_throws_iff :
    Meets s n m U T ((.throws, t) : Completion β × Memory α ε) ↔
      (Sound t n ∧ SameMembers s t) ∧ ¬ U ∧ ¬ T := by
  constructor
  · rintro ⟨-, hthrows, hU, hT⟩
    exact ⟨hthrows rfl, by simpa using hU, by simpa using hT⟩
  · rintro ⟨ht, hU, hT⟩
    exact ⟨by simp, fun _ => ht, by simpa using hU, by simpa using hT⟩

@[simp] theorem of_terminates_iff :
    Meets s n m U T ((.terminates, t) : Completion β × Memory α ε) ↔ ¬ U ∧ T := by
  constructor
  · rintro ⟨-, -, hU, hT⟩
    exact ⟨by simpa using hU, hT.mp rfl⟩
  · rintro ⟨hU, hT⟩
    exact ⟨by simp, by simp, by simpa using hU, by simpa using hT⟩

@[simp] theorem of_undefined_iff :
    Meets s n m U T ((.undefined, t) : Completion β × Memory α ε) ↔ U ∧ ¬ T := by
  constructor
  · rintro ⟨-, -, hU, hT⟩
    exact ⟨hU.mp rfl, by simpa using hT⟩
  · rintro ⟨hU, hT⟩
    exact ⟨by simp, by simp, by simpa using hU, by simpa using hT⟩

@[simp] theorem ite_iff {c : Prop} [Decidable c] {r r' : Completion β × Memory α ε} :
    Meets s n m U T (if c then r else r') ↔
      (c → Meets s n m U T r) ∧ (¬ c → Meets s n m U T r') := by
  split_ifs with h <;> simp [h]

theorem congr {U' T' : Prop} {r : Completion β × Memory α ε} (h : Meets s n m U T r)
    (hU : U ↔ U') (hT : T ↔ T') : Meets s n m U' T' r :=
  ⟨h.returns, h.throws, h.undefined.trans hU, h.terminates.trans hT⟩

/-- What is done with the result changes nothing. -/
theorem next {γ : Type} {r : Completion β × Memory α ε} (h : Meets s n m U T r) (f : β → γ) :
    Meets s n m U T (Exceptional.next r fun b => pure (f b)) := by
  obtain ⟨c, t⟩ := r
  cases c <;> simpa using h

/-- A promise not to throw turns an exception into the end of the program. -/
theorem noexcept {m' : Prog α ε β} {V : Prop} (h : Meets s n m U T (m' s))
    (hV : (m' s).1 = .throws ↔ V) : Meets s n m U (T ∨ V) (Exceptional.noexcept m' s) := by
  rw [noexcept_apply]
  generalize m' s = r at h hV ⊢
  obtain ⟨c, t⟩ := r
  cases c <;> simp_all

end Meets

section Operations

variable (X : Types α ε) {s : Memory α ε} {n i j : ℕ}

@[simp] theorem not_throws_true (k : ℕ) : ¬ Throws X true k := by simp [Throws]

/-- A call that throws. -/
theorem special_of_throws {nothrow : Bool} (h : Throws X nothrow s.calls) :
    special X nothrow s = (.throws, s.called) := by
  rw [special_apply, h.1, h.2]
  rfl

/-- A call that does not throw. -/
theorem special_of_not_throws {nothrow : Bool} (h : ¬ Throws X nothrow s.calls) :
    special X nothrow s = (.returns (), s.called) := by
  rw [special_apply, if_neg]
  simpa [Throws] using h

-- a function is carried out once it is known which of its calls throw
attribute [-simp] special_apply bind_pure_comp bind_assoc Option.bind_eq_bind List.bind_eq_flatMap

attribute [local simp] special_of_throws special_of_not_throws Undefined Terminates
  AssignsNoexcept Has

theorem constructInPlace_meets (hs : Sound s n) (v : α) :
    Meets s n 0 (Undefined X s (.inPlace v)) (Terminates X s (.inPlace v))
      (constructInPlace X v s) := by
  by_cases hnew : Throws X false s.calls <;> simp [constructInPlace, hnew, hs]

theorem constructUnexpect_meets (hs : Sound s n) (e : ε) :
    Meets s n 0 (Undefined X s (.unexpect e)) (Terminates X s (.unexpect e))
      (constructUnexpect X e s) := by
  by_cases hnew : Throws X false s.calls <;> simp [constructUnexpect, hnew, hs]

theorem constructFrom_meets (hs : Sound s n) (ref : Ref) (hj : Lives s j) :
    Meets s n 0 (Undefined X s (.construct ref j)) (Terminates X s (.construct ref j))
      (constructFrom X ref j s) := by
  -- the new object is not the one that it is made from
  have hne : j ≠ s.objects.length := Memory.ne_length hj
  obtain ⟨c, hj⟩ := hs.get hj
  cases c with
  | ok v =>
    by_cases hnew : Throws X (X.T.nothrowConstructible ref) s.calls
    · simp [constructFrom, construct, hj, hne, hnew]
    · cases ref <;> simp [constructFrom, construct, hj, hne, hnew, hs]
  | error e =>
    by_cases hnew : Throws X (X.E.nothrowConstructible ref) s.calls
    · simp [constructFrom, constructError, hj, hne, hnew]
    · cases ref <;> simp [constructFrom, constructError, hj, hne, hnew, hs]

/-- The value that the base class has made is one more without an object. -/
theorem constructConverting_meets (hs : Sound s n) (v : α) (c : Except ε α) :
    Meets s n 1 (Undefined X s (.convert v c)) (Terminates X s (.convert v c))
      (constructConverting X v c s) := by
  by_cases hbase : Throws X false s.calls
  · simp [constructConverting, constructInPlace, hbase, hs]
  by_cases hnew : Throws X false (s.calls + 1)
  · cases c <;>
      simp [constructConverting, constructInPlace, construct, constructError, hbase, hnew]
  · cases c <;>
      simp [constructConverting, constructInPlace, construct, constructError, hbase, hnew, hs]

/-- A value and an error are those of two objects. -/
theorem ne_of_value_error {v : α} {e : ε} (hi : s.get? i = some (.ofContent (.ok v)))
    (hj : s.get? j = some (.ofContent (.error e))) : i ≠ j := by
  rintro rfl
  simp [hi] at hj

/-! ### Assignments -/

section Assign

variable {c d : Except ε α} (ref : Ref)

/-- Unless a value is to take the place of an error, all overloads do what `assign_common` does. -/
theorem assign_eq_assignCommon {x y : Expected α ε} (hi : s.get? i = some x)
    (hj : s.get? j = some y) (h : x.hasVal = true ∨ y.hasVal = false) :
    assign X ref i j s =
      if AssignsNoexcept X ref then noexcept (assignCommon X ref i j) s
      else assignCommon X ref i j s := by
  have hplace : assignInPlace X ref i j s = noexcept (assignCommon X ref i j) s := by
    rcases h with h | h <;> simp [assignInPlace, hi, hj, h]
  have hfirst : assignCopyFirst X i j s = noexcept (assignCommon X .copy i j) s := by
    rcases h with h | h <;> simp [assignCopyFirst, hi, hj, h]
  have hkeep : assignKeepError X ref i j s = assignCommon X ref i j s := by
    rcases h with h | h <;> simp [assignKeepError, hi, hj, h]
  cases ref with
  | copy =>
    by_cases hcopy : X.T.nothrowConstructible .copy = true
    · simp [assign, hplace, hcopy]
    · simp [assign, hfirst, hkeep, hcopy]
  | move =>
    by_cases hmove : X.T.nothrowConstructible .move = true
    · simp [assign, hplace, hmove]
    · simp [assign, hkeep, hmove]

/-- The assignment of one member to another, which may throw. -/
theorem assignFrom_meets {τ : Type} {u : UnionMember α ε τ} {b : Bool} (hu : u.IsMember b)
    (hs : Sound s n) {v w : τ} (hi : s.get? i = some ⟨some (u.inject v), b⟩)
    (hj : s.get? j = some ⟨some (u.inject w), b⟩) :
    Meets s n 0 False False (assignFrom X u ref i j s) ∧
      ((assignFrom X u ref i j s).1 = .throws ↔
        Throws X (u.type.nothrowAssignable ref) s.calls) := by
  have hread := hu.project_inject
  have hput : ∀ {t : Memory α ε} {k m : ℕ} (v : τ), Sound t m → (t.get? k).isSome →
      Sound (t.put k ⟨some (u.inject v), b⟩) m := fun v ht hk => hu.sound_put ht hk v
  by_cases hassign : Throws X (u.type.nothrowAssignable ref) s.calls
  · simp [hi, hj, hread, hassign, hput, hs]
  · cases ref <;> simp [hi, hj, hread, hassign, hput, hs]

/-- To a value `assign_common` assigns an error by constructing it, which must not throw. -/
theorem assignCommon_of_value_error (hs : Sound s n) {v : α} {e : ε}
    (hi : s.get? i = some (.ofContent (.ok v))) (hj : s.get? j = some (.ofContent (.error e))) :
    Meets s n 0 False (Throws X (X.E.nothrowConstructible ref) s.calls) (assignCommon X ref i j s) ∧
      (assignCommon X ref i j s).1 ≠ .throws := by
  have hne : i ≠ j := ne_of_value_error hi hj
  by_cases hnew : Throws X (X.E.nothrowConstructible ref) s.calls
  · simp [assignCommon, constructError, hi, hj, hne.symm, hnew]
  · cases ref <;> simp [assignCommon, constructError, hi, hj, hne, hne.symm, hnew, hs]

/-- The overload in place, where a value takes the place of an error. -/
theorem assignInPlace_meets (hs : Sound s n) {e : ε} {v : α}
    (hi : s.get? i = some (.ofContent (.error e))) (hj : s.get? j = some (.ofContent (.ok v))) :
    Meets s n 0 False (Throws X (X.T.nothrowConstructible ref) s.calls)
      (assignInPlace X ref i j s) := by
  have hne : i ≠ j := (ne_of_value_error hj hi).symm
  by_cases hnew : Throws X (X.T.nothrowConstructible ref) s.calls
  · simp [assignInPlace, construct, hi, hj, hne.symm, hnew]
  · cases ref <;> simp [assignInPlace, construct, hi, hj, hne, hne.symm, hnew, hs]

/-- The overload that makes a copy first, which may throw. -/
theorem assignCopyFirst_meets (hs : Sound s n) {e : ε} {v : α}
    (hi : s.get? i = some (.ofContent (.error e))) (hj : s.get? j = some (.ofContent (.ok v)))
    (hmove : X.T.nothrowConstructible .move = true) :
    Meets s n 0 False (Throws X (X.T.nothrowConstructible .copy) s.calls)
      (assignCopyFirst X i j s) := by
  by_cases hcopy : Throws X (X.T.nothrowConstructible .copy) s.calls
  · simp [assignCopyFirst, hi, hj, hcopy]
  · simp [assignCopyFirst, construct, hi, hj, hmove, hcopy, hs]

/-- The overloads that keep the error: `construct` lets no exception out, so the error is never put
back. -/
theorem assignKeepError_meets (hs : Sound s n) {e : ε} {v : α}
    (hi : s.get? i = some (.ofContent (.error e))) (hj : s.get? j = some (.ofContent (.ok v))) :
    Meets s n 0 False
      (¬ Throws X (X.E.nothrowConstructible .move) s.calls ∧
        Throws X (X.T.nothrowConstructible ref) (s.calls + 1))
      (assignKeepError X ref i j s) := by
  have hne : i ≠ j := (ne_of_value_error hj hi).symm
  by_cases hkeep : Throws X (X.E.nothrowConstructible .move) s.calls
  · simp [assignKeepError, tryInPlace, hi, hj, hkeep, hs]
  by_cases hnew : Throws X (X.T.nothrowConstructible ref) (s.calls + 1)
  · simp [assignKeepError, tryInPlace, construct, hi, hj, hne.symm, hkeep, hnew]
  · cases ref <;>
      simp [assignKeepError, tryInPlace, construct, hi, hj, hne, hne.symm, hkeep, hnew, hs]

/-- The assignment does what `assign_common` comes to, and may be declared `noexcept`. -/
theorem assign_meets_of_assignCommon {x y : Expected α ε} (hi : s.get? i = some x)
    (hj : s.get? j = some y) (h : x.hasVal = true ∨ y.hasVal = false) {T V : Prop}
    (hmeets : Meets s n 0 False T (assignCommon X ref i j s))
    (hthrows : (assignCommon X ref i j s).1 = .throws ↔ V) :
    Meets s n 0 False (T ∨ AssignsNoexcept X ref ∧ V) (assign X ref i j s) := by
  rw [assign_eq_assignCommon X ref hi hj h]
  split_ifs with hnoexcept
  · exact (hmeets.noexcept hthrows).congr Iff.rfl (by simp only [hnoexcept, true_and])
  · exact hmeets.congr Iff.rfl (by simp only [hnoexcept, false_and, or_false])

/-- The assignment of a value to an error is done by one of three overloads. -/
theorem assign_meets_of_error_value (hs : Sound s n) {e : ε} {v : α}
    (hi : s.get? i = some (.ofContent (.error e))) (hj : s.get? j = some (.ofContent (.ok v))) :
    Meets s n 0 False
      (if AssignsNoexcept X ref then Throws X (X.T.nothrowConstructible ref) s.calls
        else ¬ Throws X (X.E.nothrowConstructible .move) s.calls ∧ Throws X false (s.calls + 1))
      (assign X ref i j s) := by
  cases ref with
  | copy =>
    by_cases hcopy : X.T.nothrowConstructible .copy = true
    · simpa [assign, hcopy] using assignInPlace_meets X .copy hs hi hj
    by_cases hmove : X.T.nothrowConstructible .move = true
    · simpa [assign, hcopy, hmove] using assignCopyFirst_meets X hs hi hj hmove
    · simpa [assign, hcopy, hmove] using assignKeepError_meets X .copy hs hi hj
  | move =>
    by_cases hmove : X.T.nothrowConstructible .move = true
    · simpa [assign, hmove] using assignInPlace_meets X .move hs hi hj
    · simpa [assign, hmove] using assignKeepError_meets X .move hs hi hj

theorem assign_meets (hs : Sound s n) (hi : Lives s i) (hj : Lives s j) :
    Meets s n 0 (Undefined X s (.assign ref i j)) (Terminates X s (.assign ref i j))
      (assign X ref i j s) := by
  obtain ⟨c, hi⟩ := hs.get hi
  obtain ⟨d, hj⟩ := hs.get hj
  cases c with
  | ok v =>
    cases d with
    | ok w =>
      -- a value to a value: the value is assigned
      have hcommon : assignCommon X ref i j s = assignFrom X X.val ref i j s := by
        simp [assignCommon, hi, hj, -assignFrom]
      obtain ⟨hmeets, hthrows⟩ := assignFrom_meets X ref X.isMember_val hs hi hj
      rw [← hcommon] at hmeets hthrows
      have := assign_meets_of_assignCommon X ref hi hj (.inl rfl) hmeets hthrows
      exact this.congr Iff.rfl (by simp [hi, hj])
    | error e =>
      -- an error to a value: the error takes the place of the value
      obtain ⟨hmeets, hthrows⟩ := assignCommon_of_value_error X ref hs hi hj
      have := assign_meets_of_assignCommon X ref hi hj (.inl rfl) hmeets (iff_false_intro hthrows)
      exact this.congr Iff.rfl (by simp [hi, hj])
  | error e =>
    cases d with
    | ok v =>
      -- a value to an error: the branches of the three overloads
      exact (assign_meets_of_error_value X ref hs hi hj).congr Iff.rfl (by simp [hi, hj])
    | error e' =>
      -- an error to an error: the error is assigned
      have hcommon : assignCommon X ref i j s = assignFrom X X.err ref i j s := by
        simp [assignCommon, hi, hj, -assignFrom]
      obtain ⟨hmeets, hthrows⟩ := assignFrom_meets X ref X.isMember_err hs hi hj
      rw [← hcommon] at hmeets hthrows
      have := assign_meets_of_assignCommon X ref hi hj (.inr rfl) hmeets hthrows
      exact this.congr Iff.rfl (by simp [hi, hj])

end Assign

/-! ### Other operations -/

/-- Where the error of the object is kept, it is put back when the new value throws; but it was
destroyed before. -/
theorem replaceError_meets (hs : Sound s n) {e : ε} (hi : s.get? i = some (.ofContent (.error e)))
    (nothrow : Bool) (v : α) :
    Meets s n 0
      (¬ Throws X (X.E.nothrowConstructible .move) s.calls ∧ Throws X nothrow (s.calls + 1)) False
      (replaceError X i nothrow v s) := by
  cases nothrow with
  | true => simp [replaceError, newValue, hi, hs]
  | false =>
    by_cases hkeep : Throws X (X.E.nothrowConstructible .move) s.calls
    · simp [replaceError, tryInPlace, hi, hkeep, hs]
    by_cases hnew : Throws X false (s.calls + 1)
    · simp [replaceError, newValue, tryInPlace, hi, hkeep, hnew]
    · simp [replaceError, newValue, tryInPlace, hi, hkeep, hnew, hs]

theorem assignValue_meets (hs : Sound s n) (hi : Lives s i) (nothrow : Bool) (v : α) :
    Meets s n 0 (Undefined X s (.assignValue i nothrow v))
      (Terminates X s (.assignValue i nothrow v)) (assignValue X i nothrow v s) := by
  obtain ⟨c, hi⟩ := hs.get hi
  cases c with
  | ok w => by_cases hassign : Throws X false s.calls <;> simp [assignValue, hi, hassign, hs]
  | error e => simpa [assignValue, hi] using replaceError_meets X hs hi nothrow v

theorem assignUnexpected_meets (hs : Sound s n) (ref : Ref) (hi : Lives s i) (e : ε) :
    Meets s n 0 (Undefined X s (.assignUnexpected ref i e))
      (Terminates X s (.assignUnexpected ref i e)) (assignUnexpected X ref i e s) := by
  obtain ⟨c, hi⟩ := hs.get hi
  cases c with
  | ok v => cases ref <;> simp [assignUnexpected, hi, hs]
  | error e' =>
    by_cases hassign : Throws X (X.E.nothrowAssignable ref) s.calls <;> cases ref <;>
      simp [assignUnexpected, hi, hassign, hs]

theorem emplace_meets (hs : Sound s n) (hi : Lives s i) (nothrow : Bool) (v : α) :
    Meets s n 0 (Undefined X s (.emplace i nothrow v)) (Terminates X s (.emplace i nothrow v))
      (emplace X i nothrow v s) := by
  obtain ⟨c, hi⟩ := hs.get hi
  cases c with
  | ok w =>
    -- the new value is made first, and moved into the old one
    by_cases hnew : Throws X nothrow s.calls
    · simp [emplace, hi, hnew, hs]
    by_cases hassign : Throws X (X.T.nothrowAssignable .move) (s.calls + 1) <;>
      simp [emplace, hi, hnew, hassign, hs]
  | error e => simpa [emplace, hi] using replaceError_meets X hs hi nothrow v

/-- `std::swap` constructs one member and assigns two, which may all throw. -/
theorem stdSwap_meets {τ : Type} {u : UnionMember α ε τ} {b : Bool} (hu : u.IsMember b)
    (hs : Sound s n) {v w : τ} (hi : s.get? i = some ⟨some (u.inject v), b⟩)
    (hj : s.get? j = some ⟨some (u.inject w), b⟩) :
    Meets s n 0 False False (stdSwap X u i j s) := by
  have hread := hu.project_inject
  have hput : ∀ {t : Memory α ε} {k m : ℕ} (v : τ), Sound t m → (t.get? k).isSome →
      Sound (t.put k ⟨some (u.inject v), b⟩) m := fun v ht hk => hu.sound_put ht hk v
  by_cases hkeep : Throws X (u.type.nothrowConstructible .move) s.calls
  · simp [stdSwap, hi, hread, hkeep, hs]
  by_cases hfirst : Throws X (u.type.nothrowAssignable .move) (s.calls + 1)
  · obtain rfl | hne := eq_or_ne i j
    · simp [stdSwap, hi, hread, hkeep, hfirst, hput, hs]
    · simp [stdSwap, hi, hj, hread, hne.symm, hkeep, hfirst, hput, hs]
  by_cases hsecond : Throws X (u.type.nothrowAssignable .move) (s.calls + 1 + 1)
  -- the second assignment throws or not; the two objects may be one
  all_goals
    obtain rfl | hne := eq_or_ne i j
    · simp [stdSwap, hi, hread, hkeep, hfirst, hsecond, hput, hs]
    · simp [stdSwap, hi, hj, hread, hne.symm, hkeep, hfirst, hsecond, hput, hs]

/-- The member that is kept is put back when the other one throws; but it was destroyed before. -/
theorem swapOnlyOne_meets (hs : Sound s n) {v : α} {e : ε}
    (hi : s.get? i = some (.ofContent (.ok v))) (hj : s.get? j = some (.ofContent (.error e)))
    (h : X.T.nothrowConstructible .move ∨ X.E.nothrowConstructible .move) :
    Meets s n 0
      (if X.T.nothrowConstructible .move then
        Throws X (X.E.nothrowConstructible .move) (s.calls + 1)
      else Throws X (X.T.nothrowConstructible .copy) (s.calls + 1)) False
      (swapOnlyOne X i j s) := by
  have hne : i ≠ j := ne_of_value_error hi hj
  by_cases hmove : X.T.nothrowConstructible .move = true
  · -- the value is kept outside while the error is moved
    by_cases hnothrow : X.E.nothrowConstructible .move = true
    · simp [swapOnlyOne, hi, hj, hne, hne.symm, hmove, hnothrow, hs]
    by_cases herror : Throws X false (s.calls + 1)
    · simp [swapOnlyOne, hi, hj, hne.symm, hmove, hnothrow, herror]
    · simp [swapOnlyOne, hi, hj, hne, hne.symm, hmove, hnothrow, herror, hs]
  · -- the error is kept outside while the value is copied
    have hnothrow : X.E.nothrowConstructible .move = true := h.resolve_left hmove
    by_cases hvalue : Throws X (X.T.nothrowConstructible .copy) (s.calls + 1)
    · simp [swapOnlyOne, hi, hj, hne, hmove, hnothrow, hvalue]
    · simp [swapOnlyOne, hi, hj, hne, hne.symm, hmove, hnothrow, hvalue, hs]

theorem swap_meets (hs : Sound s n) (hi : Lives s i) (hj : Lives s j)
    (h : X.T.nothrowConstructible .move ∨ X.E.nothrowConstructible .move) :
    Meets s n 0 (Undefined X s (.swap i j)) (Terminates X s (.swap i j)) (swap X i j s) := by
  obtain ⟨c, hi⟩ := hs.get hi
  obtain ⟨d, hj⟩ := hs.get hj
  cases c with
  | ok v =>
    cases d with
    | ok w => simpa [swap, hi, hj] using stdSwap_meets X X.isMember_val hs hi hj
    | error e => simpa [swap, hi, hj] using swapOnlyOne_meets X hs hi hj h
  | error e =>
    cases d with
    | ok v => simpa [swap, hi, hj] using swapOnlyOne_meets X hs hj hi h
    | error e' => simpa [swap, hi, hj] using stdSwap_meets X X.isMember_err hs hi hj

theorem value_meets (hs : Sound s n) (hi : Lives s i) :
    Meets s n 0 (Undefined X s (.value i)) (Terminates X s (.value i)) (value X i s) := by
  obtain ⟨c, hi⟩ := hs.get hi
  cases c <;> simp [value, hi, hs]

theorem deref_meets (hs : Sound s n) (hi : Lives s i) :
    Meets s n 0 (Undefined X s (.deref i)) (Terminates X s (.deref i)) (deref X i s) := by
  obtain ⟨c, hi⟩ := hs.get hi
  cases c <;> simp [deref, hi, hs]

theorem error_meets (hs : Sound s n) (hi : Lives s i) :
    Meets s n 0 (Undefined X s (.error i)) (Terminates X s (.error i)) (error X i s) := by
  obtain ⟨c, hi⟩ := hs.get hi
  cases c <;> simp [error, hi, hs]

theorem destructor_meets (hs : Sound s n) (hi : Lives s i) :
    Meets s n 0 (Undefined X s (.destroy i)) (Terminates X s (.destroy i))
      (destructor X i s) := by
  obtain ⟨c, hi⟩ := hs.get hi
  cases c <;> simp [destructor, hi, hs]

/-- **One operation** on a sound memory. -/
theorem exec_meets (hs : Sound s n) {op : Op α ε} (h : Permitted X (Lives s) op) :
    Meets s n (op.conversions (.returns none)) (Undefined X s op) (Terminates X s op)
      (exec X op s) := by
  cases op with
  | inPlace v => exact (constructInPlace_meets X hs v).next _
  | unexpect e => exact (constructUnexpect_meets X hs e).next _
  | construct ref j => exact (constructFrom_meets X hs ref h).next _
  | convert v c => exact (constructConverting_meets X hs v c).next _
  | assign ref i j => exact (assign_meets X ref hs h.1 h.2).next _
  | assignValue i nothrow v => exact (assignValue_meets X hs h.1 nothrow v).next _
  | assignUnexpected ref i e => exact (assignUnexpected_meets X hs ref h.1 e).next _
  | emplace i nothrow v => exact (emplace_meets X hs h nothrow v).next _
  | swap i j => exact (swap_meets X hs h.1 h.2.1 h.2.2).next _
  | value i => exact (value_meets X hs h).next _
  | deref i => exact (deref_meets X hs h).next _
  | error i => exact (error_meets X hs h).next _
  | destroy i => exact (destructor_meets X hs h).next _

end Operations

/-! ## Programs -/

section Programs

variable (X : Types α ε)

/-- The memory is sound as long as the program goes on. -/
def State.Sound (s : State α ε) : Prop := s.last.GoesOn → Tl.Sound s.memory s.converted

theorem State.sound_init : (State.init : State α ε).Sound := fun _ =>
  { held := fun k x h => by simp [init, Memory.get?, Objects.live?] at h
    balance := rfl }

theorem Op.conversions_returns (op : Op α ε) (r : Option (Except ε α)) :
    op.conversions (.returns r) = op.conversions (.returns none) := by
  cases op <;> rfl

theorem Op.conversions_throws (op : Op α ε) : op.conversions .throws = 0 := by
  cases op <;> rfl

variable {X} {op : Op α ε} {s s' : State α ε}

/-- A step of a program that has not ended is an operation. -/
theorem step_cases (h : step X op s = some s') :
    s.last.GoesOn ∧ Permitted X (Lives s.memory) op ∧ exec X op s.memory = (s'.last, s'.memory) ∧
      s'.converted = s.converted + op.conversions s'.last := by
  rw [step] at h
  split_ifs at h with hop
  obtain rfl := Option.some_inj.mp h
  exact ⟨hop.1, hop.2, rfl, rfl⟩

theorem meets_of_step (hs : s.Sound) (h : step X op s = some s') :
    Meets s.memory s.converted (op.conversions (.returns none)) (Undefined X s.memory op)
      (Terminates X s.memory op) (s'.last, s'.memory) := by
  obtain ⟨hgoes, hop, hexec, -⟩ := step_cases h
  rw [← hexec]
  exact exec_meets X (hs hgoes) hop

/-- **The invariant.** -/
theorem State.sound_step (hs : s.Sound) (h : step X op s = some s') : s'.Sound := by
  have hmeets := meets_of_step hs h
  have hconverted := (step_cases h).2.2.2
  intro hgoes
  rw [hconverted]
  cases hlast : s'.last with
  | returns r =>
    rw [Op.conversions_returns]
    exact hmeets.returns r hlast
  | throws =>
    rw [Op.conversions_throws]
    exact (hmeets.throws hlast).1
  | terminates => exact absurd hgoes (by rw [hlast]; exact id)
  | undefined => exact absurd hgoes (by rw [hlast]; exact id)

/-- A program that goes on has all its objects in order: each holds the member that its flag tells,
and of all members that were constructed, the conversions have left one each without an object. -/
theorem sound_of_run {ops : List (Op α ε)} (h : Machine.run (step X) ops State.init = some s)
    (hgoes : s.last.GoesOn) : Tl.Sound s.memory s.converted :=
  Machine.run_invariant (fun _ _ _ hs h => State.sound_step hs h) State.sound_init h hgoes

/-- Types whose special member functions promise nothing, and the calls that throw. -/
def mayThrow (fails : ℕ → Bool) : Types ℕ ℕ where
  T := ⟨fun _ => false, fun _ => false, fun _ => 0, fun _ _ => 0⟩
  E := ⟨fun _ => false, fun _ => false, fun _ => 0, fun _ _ => 0⟩
  fails := fails

theorem sound_of_run_conversion :
    ∃ s, Machine.run (step (mayThrow fun _ => false))
        [.convert 0 (.ok 1), .unexpect 2, .assign .copy 1 0, .destroy 0] State.init = some s ∧
      Tl.Sound s.memory s.converted := by
  obtain ⟨s, hs, hgoes⟩ : ∃ s, Machine.run (step (mayThrow fun _ => false))
      [.convert 0 (.ok 1), .unexpect 2, .assign .copy 1 0, .destroy 0] State.init = some s ∧
      s.last.GoesOn := ⟨_, rfl, trivial⟩
  exact ⟨s, hs, sound_of_run hs hgoes⟩

variable (X)

/-- A program keeps its meaning exactly as long as no operation loses it. -/
theorem everyState_defined_iff (ops : List (Op α ε)) :
    Machine.EveryState (step X) (fun s => s.last ≠ .undefined) ops State.init ↔
      Machine.EveryStep (step X) (fun op s => ¬ Undefined X s.memory op) ops State.init :=
  Machine.everyState_iff_everyStep_of_invariant
    (fun _ _ _ hs h => State.sound_step hs h)
    (fun _ _ _ hs _ h => not_congr (meets_of_step hs h).undefined)
    (by simp [State.init]) State.sound_init

/-- A program is not terminated exactly as long as no operation does it. -/
theorem everyState_not_terminates_iff (ops : List (Op α ε)) :
    Machine.EveryState (step X) (fun s => s.last ≠ .terminates) ops State.init ↔
      Machine.EveryStep (step X) (fun op s => ¬ Terminates X s.memory op) ops State.init :=
  Machine.everyState_iff_everyStep_of_invariant
    (fun _ _ _ hs h => State.sound_step hs h)
    (fun _ _ _ hs _ h => not_congr (meets_of_step hs h).terminates)
    (by simp [State.init]) State.sound_init

end Programs

end Tl

end RcppUtils
