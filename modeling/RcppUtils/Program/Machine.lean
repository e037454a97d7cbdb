import Mathlib.Data.Option.Basic

/-!
# Partial machines

A machine takes a state and an action to the next state, or gets stuck. A property of states and
a condition on steps are compared along a run: when every step from a good state leads to a good
state exactly under the condition, a run stays among good states exactly when all its steps meet
the condition.

## Main definitions

* `Machine.run`: the state after a list of actions
* `Machine.EveryState`, `Machine.EveryStep`: what holds in every state, and at every step, of a
  run

## Main results

* `Machine.run_invariant`: what every step preserves holds after every run
* `Machine.run_append`, `Machine.everyStep_append`: a run is composed of its parts
* `Machine.run_map`: the run of a machine that another one simulates
* `Machine.run_related`, `Machine.exists_run_of_related`: the runs of machines with related steps
* `Machine.everyState_iff_everyStep`: the exact condition for an invariant to hold along a run
* `Machine.everyState_iff_everyStep_of_invariant`: the same, where another invariant always holds
-/

namespace Machine

variable {S A : Type*} (step : A → S → Option S)

/-- The state after the actions, if none of them gets stuck. -/
def run : List A → S → Option S
  | [], s => some s
  | a :: as, s => (step a s).bind (run as)

/-- `I` holds in every state that the run passes. -/
def EveryState (I : S → Prop) : List A → S → Prop
  | [], s => I s
  | a :: as, s => I s ∧ ∀ s', step a s = some s' → EveryState I as s'

/-- `C` holds at every step that the run takes, of the state before it. -/
def EveryStep (C : A → S → Prop) : List A → S → Prop
  | [], _ => True
  | a :: as, s => ∀ s', step a s = some s' → C a s ∧ EveryStep C as s'

variable {step} {I : S → Prop} {C : A → S → Prop}

theorem EveryState.head {as : List A} {s : S} (h : EveryState step I as s) : I s := by
  cases as with
  | nil => exact h
  | cons a as => exact h.1

theorem EveryState.imp {J : S → Prop} (hIJ : ∀ s, I s → J s) {as : List A} {s : S}
    (h : EveryState step I as s) : EveryState step J as s := by
  induction as generalizing s with
  | nil => exact hIJ s h
  | cons a as ih => exact ⟨hIJ s h.1, fun s' hs' => ih (h.2 s' hs')⟩

theorem EveryStep.cons {a : A} {as : List A} {s s' : S} (hs' : step a s = some s') (ha : C a s)
    (h : EveryStep step C as s') : EveryStep step C (a :: as) s := by
  intro t ht
  obtain rfl : s' = t := Option.some_inj.mp (hs'.symm.trans ht)
  exact ⟨ha, h⟩

theorem run_append (as bs : List A) (s : S) :
    run step (as ++ bs) s = (run step as s).bind (run step bs) := by
  induction as generalizing s with
  | nil => rfl
  | cons a as ih =>
    rw [List.cons_append, run, run, Option.bind_assoc]
    congr 1
    funext s'
    exact ih s'

/-- A run behind another one, which does not get stuck. -/
theorem everyStep_append {as bs : List A} {s s' : S} (h : run step as s = some s') :
    EveryStep step C (as ++ bs) s ↔ EveryStep step C as s ∧ EveryStep step C bs s' := by
  induction as generalizing s with
  | nil =>
    obtain rfl : s = s' := Option.some_inj.mp h
    exact (and_iff_right trivial).symm
  | cons a as ih =>
    obtain ⟨t, ht, hrun⟩ := Option.bind_eq_some_iff.mp h
    have hcons : ∀ cs, EveryStep step C (a :: cs) s ↔ C a s ∧ EveryStep step C cs t := by
      intro cs
      simp [EveryStep, ht]
    rw [List.cons_append, hcons, hcons, ih hrun, and_assoc]

/-- **The invariant rule.** -/
theorem run_invariant (hstep : ∀ a s s', I s → step a s = some s' → I s') {as : List A} {s t : S}
    (hs : I s) (ht : run step as s = some t) : I t := by
  induction as generalizing s with
  | nil =>
    obtain rfl : s = t := Option.some_inj.mp ht
    exact hs
  | cons a as ih =>
    obtain ⟨s', hs', ht'⟩ := Option.bind_eq_some_iff.mp ht
    exact ih (hstep a s s' hs hs') ht'

/-- **Refinement**: if the view of a state in `I` makes the steps of another machine, then the views
of a run are a run of that machine. -/
theorem run_map {S' : Type*} {step' : A → S' → Option S'} (view : S → S')
    (hI : ∀ a s s', I s → step a s = some s' → I s')
    (hview : ∀ a s, I s → (step a s).map view = step' a (view s)) (as : List A) {s : S}
    (hs : I s) : (run step as s).map view = run step' as (view s) := by
  induction as generalizing s with
  | nil => rfl
  | cons a as ih =>
    rw [run, run, ← hview a s hs]
    cases h : step a s with
    | none => rfl
    | some s' => exact ih (hI a s s' hs h)

section Related

variable {T : Type*} {step' : A → T → Option T} {R : S → T → Prop}

/-- **Related runs**: what is related stays so, as long as both machines go on. -/
theorem run_related
    (hR : ∀ a s t s' t', R s t → step a s = some s' → step' a t = some t' → R s' t')
    {as : List A} {s s' : S} {t t' : T} (h : R s t) (hs : run step as s = some s')
    (ht : run step' as t = some t') : R s' t' := by
  induction as generalizing s t with
  | nil =>
    obtain rfl : s = s' := Option.some_inj.mp hs
    obtain rfl : t = t' := Option.some_inj.mp ht
    exact h
  | cons a as ih =>
    obtain ⟨s₁, hs₁, hs⟩ := Option.bind_eq_some_iff.mp hs
    obtain ⟨t₁, ht₁, ht⟩ := Option.bind_eq_some_iff.mp ht
    exact ih (hR a s t s₁ t₁ h hs₁ ht₁) hs ht

/-- A run that meets the condition `C` at every step has a related one. -/
theorem exists_run_of_related
    (hR : ∀ a s t s' t', R s t → step a s = some s' → step' a t = some t' → R s' t')
    (hC : ∀ a s t s', R s t → C a s → step a s = some s' → ∃ t', step' a t = some t')
    {as : List A} {s s' : S} {t : T} (h : R s t) (hs : run step as s = some s')
    (hsteps : EveryStep step C as s) : ∃ t', run step' as t = some t' := by
  induction as generalizing s t with
  | nil => exact ⟨t, rfl⟩
  | cons a as ih =>
    obtain ⟨s₁, hs₁, hs⟩ := Option.bind_eq_some_iff.mp hs
    obtain ⟨ha, hsteps⟩ := hsteps s₁ hs₁
    obtain ⟨t₁, ht₁⟩ := hC a s t s₁ h ha hs₁
    rw [run, ht₁, Option.bind_some]
    exact ih (hR a s t s₁ t₁ h hs₁ ht₁) hs hsteps

end Related

/-- **The exact condition for an invariant**: if a step from a state in `I` stays in `I` exactly
under the condition `C`, then a run from a state in `I` stays in `I` exactly when its steps meet
`C`. -/
theorem everyState_iff_everyStep
    (hstep : ∀ a s s', I s → step a s = some s' → (I s' ↔ C a s)) {as : List A} {s : S}
    (hs : I s) : EveryState step I as s ↔ EveryStep step C as s := by
  induction as generalizing s with
  | nil => exact iff_of_true hs trivial
  | cons a as ih =>
    constructor
    · rintro ⟨-, h⟩ s' hs'
      -- the next state is good, so the step met the condition
      have hI : I s' := (h s' hs').head
      exact ⟨(hstep a s s' hs hs').mp hI, (ih hI).mp (h s' hs')⟩
    · intro h
      refine ⟨hs, ?_⟩
      intro s' hs'
      obtain ⟨hC, htail⟩ := h s' hs'
      exact (ih ((hstep a s s' hs hs').mpr hC)).mpr htail

/-- The exact condition, where the steps are compared in states in `J`, which every step keeps. -/
theorem everyState_iff_everyStep_of_invariant {J : S → Prop}
    (hJ : ∀ a s s', J s → step a s = some s' → J s')
    (hstep : ∀ a s s', J s → I s → step a s = some s' → (I s' ↔ C a s)) {as : List A} {s : S}
    (hs : I s) (hJs : J s) : EveryState step I as s ↔ EveryStep step C as s := by
  induction as generalizing s with
  | nil => exact iff_of_true hs trivial
  | cons a as ih =>
    constructor
    · rintro ⟨-, h⟩ s' hs'
      have hI : I s' := (h s' hs').head
      exact ⟨(hstep a s s' hJs hs hs').mp hI, (ih hI (hJ a s s' hJs hs')).mp (h s' hs')⟩
    · intro h
      refine ⟨hs, ?_⟩
      intro s' hs'
      obtain ⟨hC, htail⟩ := h s' hs'
      have hI : I s' := (hstep a s s' hJs hs hs').mpr hC
      exact (ih hI (hJ a s s' hJs hs')).mpr htail

end Machine
