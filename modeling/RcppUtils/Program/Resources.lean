import Mathlib.Data.List.Count
import Mathlib.Data.List.Nodup
import RcppUtils.Program.Machine

/-!
# Resources

A program acquires resources, uses them, and releases them. A machine keeps the resources that are
held, and gets stuck when one is used or released that is not.

## Main definitions

* `Event ι`, `Resources.step`: what happens to a resource, and the machine
* `acquired es`, `released es`: the resources that are acquired and released, in order
* `Disciplined es`: a resource is used and released only while it is held

## Main results

* `count_run`: what is acquired is released or still held
* `disciplined_of_run`: a run that does not get stuck is disciplined
* `released_once_iff`: when every resource is released exactly once
-/

namespace Resources

variable {ι : Type*}

/-- What happens to a resource. -/
inductive Event (ι : Type*)
  | acquire (i : ι)
  | use (i : ι)
  | release (i : ι)
  deriving DecidableEq

/-- The resources that are acquired, in order. -/
def acquired (es : List (Event ι)) : List ι :=
  es.filterMap fun
    | .acquire i => some i
    | _ => none

/-- The resources that are released, in order. -/
def released (es : List (Event ι)) : List ι :=
  es.filterMap fun
    | .release i => some i
    | _ => none

/-- The resource was acquired in the past and has not been released since. -/
def HeldAfter (past : List (Event ι)) (i : ι) : Prop := i ∈ acquired past ∧ i ∉ released past

/-- Resources are used and released only while they are held. -/
structure Disciplined (es : List (Event ι)) : Prop where
  use : ∀ past i rest, es = past ++ .use i :: rest → HeldAfter past i
  release : ∀ past i rest, es = past ++ .release i :: rest → HeldAfter past i

/-- The resources that are held after an event. -/
def step [DecidableEq ι] : Event ι → List ι → Option (List ι)
  | .acquire i, held => some (i :: held)
  | .use i, held => if i ∈ held then some held else none
  | .release i, held => if i ∈ held then some (held.erase i) else none

/-! ## Counting -/

@[simp] theorem acquired_cons_acquire (i : ι) (es : List (Event ι)) :
    acquired (.acquire i :: es) = i :: acquired es := rfl

@[simp] theorem acquired_cons_use (i : ι) (es : List (Event ι)) :
    acquired (.use i :: es) = acquired es := rfl

@[simp] theorem acquired_cons_release (i : ι) (es : List (Event ι)) :
    acquired (.release i :: es) = acquired es := rfl

@[simp] theorem released_cons_acquire (i : ι) (es : List (Event ι)) :
    released (.acquire i :: es) = released es := rfl

@[simp] theorem released_cons_use (i : ι) (es : List (Event ι)) :
    released (.use i :: es) = released es := rfl

@[simp] theorem released_cons_release (i : ι) (es : List (Event ι)) :
    released (.release i :: es) = i :: released es := rfl

variable [DecidableEq ι] {es : List (Event ι)} {held held' : List ι}

/-- **What is acquired is released or still held.** -/
theorem count_run (h : Machine.run step es held = some held') (i : ι) :
    (acquired es).count i + held.count i = (released es).count i + held'.count i := by
  induction es generalizing held with
  | nil =>
    obtain rfl : held = held' := Option.some_inj.mp h
    rfl
  | cons e es ih =>
    obtain ⟨held₁, hstep, hrun⟩ := Option.bind_eq_some_iff.mp h
    have hcount := ih hrun
    cases e with
    | acquire j =>
      obtain rfl := Option.some_inj.mp hstep
      rw [List.count_cons] at hcount
      rw [acquired_cons_acquire, released_cons_acquire, List.count_cons]
      omega
    | use j =>
      rw [step] at hstep
      split_ifs at hstep
      obtain rfl := Option.some_inj.mp hstep
      exact hcount
    | release j =>
      rw [step] at hstep
      split_ifs at hstep with hj
      obtain rfl := Option.some_inj.mp hstep
      rw [List.count_erase] at hcount
      rw [acquired_cons_release, released_cons_release, List.count_cons]
      rcases eq_or_ne j i with rfl | hne
      · -- the released resource was held
        have hpos := List.count_pos_iff.mpr hj
        simp only [beq_self_eq_true, if_true] at hcount ⊢
        omega
      · simp only [beq_eq_false_iff_ne.mpr hne, Bool.false_eq_true, if_false] at hcount ⊢
        omega

/-- What is held after a run from the beginning is held in the sense of its events. -/
theorem heldAfter_of_mem (h : Machine.run step es [] = some held) (hnodup : (acquired es).Nodup)
    {i : ι} (hi : i ∈ held) : HeldAfter es i := by
  have hcount := count_run h i
  have hle := List.nodup_iff_count_le_one.mp hnodup i
  have hpos := List.count_pos_iff.mpr hi
  rw [List.count_nil] at hcount
  constructor
  · exact List.count_pos_iff.mp (by omega)
  · exact List.count_eq_zero.mp (by omega)

/-- **A run that does not get stuck is disciplined.** -/
theorem disciplined_of_run (h : Machine.run step es [] = some held)
    (hnodup : (acquired es).Nodup) : Disciplined es := by
  -- the machine is before an event in a state of its past
  have past_run : ∀ past e rest, es = past ++ e :: rest →
      ∃ held₁ held₂, Machine.run step past [] = some held₁ ∧ step e held₁ = some held₂ ∧
        (acquired past).Nodup := by
    rintro past e rest rfl
    rw [Machine.run_append] at h
    obtain ⟨held₁, hpast, hrest⟩ := Option.bind_eq_some_iff.mp h
    obtain ⟨held₂, hstep, -⟩ := Option.bind_eq_some_iff.mp hrest
    refine ⟨held₁, held₂, hpast, hstep, ?_⟩
    rw [acquired, List.filterMap_append] at hnodup
    exact hnodup.of_append_left
  constructor
  · intro past i rest hes
    obtain ⟨held₁, held₂, hpast, hstep, hpnodup⟩ := past_run past _ rest hes
    rw [step] at hstep
    split_ifs at hstep with hi
    exact heldAfter_of_mem hpast hpnodup hi
  · intro past i rest hes
    obtain ⟨held₁, held₂, hpast, hstep, hpnodup⟩ := past_run past _ rest hes
    rw [step] at hstep
    split_ifs at hstep with hi
    exact heldAfter_of_mem hpast hpnodup hi

/-- **Every resource is released exactly once** exactly when none is held at the end. -/
theorem released_once_iff (h : Machine.run step es [] = some held) (hnodup : (acquired es).Nodup) :
    (∀ i ∈ acquired es, (released es).count i = 1) ↔ held = [] := by
  constructor
  · intro honce
    apply List.eq_nil_iff_forall_not_mem.mpr
    intro i hi
    obtain ⟨hacq, hrel⟩ := heldAfter_of_mem h hnodup hi
    have hone := honce i hacq
    rw [List.count_eq_zero.mpr hrel] at hone
    cases hone
  · rintro rfl i hi
    have hcount := count_run h i
    rw [List.count_eq_one_of_mem hnodup hi] at hcount
    simpa using hcount.symm

end Resources
