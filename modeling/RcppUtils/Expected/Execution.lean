import Mathlib.Tactic.Common
import RcppUtils.Expected.Basic

/-!
# Execution of the functions of `tl::expected`

The steps of a function put objects into the memory and count calls. A memory is written with the
counts inside and the objects outside, and of two values that are put into the same place only the
later one is kept; then what a function does can be read off a computation.

## Main results

* `Memory.get?_put`, `Memory.living_put`: the objects after one of them takes a value
* `Memory.put_put`, `Memory.put_put_put`: the value that is kept
* `object_apply`, `special_apply`: the two ways in which a computation branches
-/

namespace RcppUtils

namespace Tl

open Exceptional

variable {α ε τ : Type}

namespace Memory

variable (s : Memory α ε) (i j k : ℕ) (x y z : Expected α ε)

/-! ### The objects -/

@[simp] theorem get?_called : s.called.get? k = s.get? k := rfl

@[simp] theorem get?_born : s.born.get? k = s.get? k := rfl

@[simp] theorem get?_died : s.died.get? k = s.get? k := rfl

@[simp] theorem length_called : s.called.objects.length = s.objects.length := by rw [called]

@[simp] theorem length_born : s.born.objects.length = s.objects.length := by rw [born]

@[simp] theorem length_died : s.died.objects.length = s.objects.length := by rw [died]

@[simp] theorem length_put : (s.put i x).objects.length = s.objects.length := List.length_set

@[simp] theorem length_allocate : (s.allocate x).objects.length = s.objects.length + 1 :=
  List.length_append

variable {s i k}

theorem lt_length (h : (s.get? i).isSome) : i < s.objects.length := by
  obtain ⟨y, hy⟩ := Option.isSome_iff_exists.mp h
  exact Objects.lt_length_of_live? hy

theorem ne_length (h : (s.get? i).isSome) : i ≠ s.objects.length :=
  Nat.ne_of_lt (lt_length h)

@[simp] theorem get?_put (h : (s.get? i).isSome) :
    (s.put i x).get? k = if k = i then some x else s.get? k :=
  Objects.live?_assign (lt_length h) x k

variable (s k)

@[simp] theorem get?_length : s.get? s.objects.length = none :=
  Objects.live?_length s.objects

@[simp] theorem get?_allocate :
    (s.allocate x).get? k = if k = s.objects.length then some x else s.get? k :=
  Objects.live?_construct s.objects x k

variable {s}

theorem get?_deallocate (h : (s.get? i).isSome) :
    (s.deallocate i x).get? k = if k = i then none else s.get? k :=
  Objects.live?_destroy (lt_length h) x k

/-! ### Counts -/

variable (s i)

@[simp] theorem calls_called : s.called.calls = s.calls + 1 := by rw [called]

@[simp] theorem calls_born : s.born.calls = s.calls := by rw [born]

@[simp] theorem calls_died : s.died.calls = s.calls := by rw [died]

@[simp] theorem calls_put : (s.put i x).calls = s.calls := by rw [put]

@[simp] theorem calls_allocate : (s.allocate x).calls = s.calls := by rw [allocate]

variable {s i}

theorem living_put (h : (s.get? i).isSome) : (s.put i x).living = s.living := by
  obtain ⟨y, hy⟩ := Option.isSome_iff_exists.mp h
  exact Nat.add_right_cancel (Objects.countP_set Slot.alive hy ⟨x, true⟩)

theorem living_deallocate (h : (s.get? i).isSome) :
    (s.deallocate i x).living + 1 = s.living := by
  obtain ⟨y, hy⟩ := Option.isSome_iff_exists.mp h
  exact Objects.countP_set Slot.alive hy ⟨x, false⟩

variable (s)

theorem living_allocate : (s.allocate x).living = s.living + 1 :=
  Objects.countP_construct Slot.alive s.objects x

/-! ### The order in which a memory is written -/

variable (i)

@[simp] theorem called_put : (s.put i x).called = s.called.put i x := rfl

@[simp] theorem born_put : (s.put i x).born = s.born.put i x := rfl

@[simp] theorem died_put : (s.put i x).died = s.died.put i x := rfl

@[simp] theorem called_born : s.born.called = s.called.born := rfl

@[simp] theorem called_died : s.died.called = s.called.died := rfl

@[simp] theorem born_died : s.died.born = s.born.died := rfl

@[simp] theorem called_allocate : (s.allocate x).called = s.called.allocate x := rfl

@[simp] theorem born_allocate : (s.allocate x).born = s.born.allocate x := rfl

@[simp] theorem put_put : (s.put i x).put i y = s.put i y := by
  simp only [put, Objects.assign, List.set_set]

@[simp] theorem put_put_put : ((s.put i x).put j y).put i z = (s.put j y).put i z := by
  obtain rfl | h := eq_or_ne i j
  · simp only [put_put]
  · simp only [put, Objects.assign]
    rw [List.set_comm (Slot.mk x true) (Slot.mk y true) h, List.set_set]

@[simp] theorem put_deallocate : (s.put i x).deallocate i y = s.deallocate i y := by
  simp only [put, deallocate, Objects.assign, Objects.destroy, List.set_set]

variable {s i k}

@[simp] theorem put_allocate (hk : k = s.objects.length) :
    (s.allocate x).put k y = s.allocate y := by
  simp [put, allocate, Objects.assign, Objects.construct, hk]

@[simp] theorem allocate_put (hi : (s.get? i).isSome) :
    (s.allocate x).put i y = (s.put i y).allocate x := by
  simp only [put, allocate, Objects.assign, Objects.construct,
    List.set_append_left i (Slot.mk y true) (lt_length hi)]

end Memory

/-! ## Primitives -/

variable (X : Types α ε) (s : Memory α ε)

@[simp] theorem object_apply (i : ℕ) : object i s = ofOption (s.get? i) s := rfl

@[simp] theorem special_apply (nothrow : Bool) :
    special X nothrow s =
      if !nothrow && X.fails s.calls then (.throws, s.called) else (.returns (), s.called) :=
  rfl

@[simp] theorem newObject_apply (x : Expected α ε) :
    newObject x s = (.returns s.objects.length, s.allocate x) :=
  rfl

attribute [simp] hasVal setHasVal read write init initFrom place destroyMember assignTo assignFrom
  withLocal noInit Types.val Types.err

end Tl

end RcppUtils
