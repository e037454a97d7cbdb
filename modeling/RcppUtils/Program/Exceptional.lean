import Mathlib.Data.Option.Basic
import Mathlib.Tactic.SplitIfs

/-!
# Computations with exceptions

A computation changes a state and returns, or an exception leaves it. A function that promises not
to throw ends the program instead; an access to an object that does not live has no meaning. A
computation is carried out from the left to the right: each construct continues the result of its
first part, and the lemmas say how it does so for each way in which that part ends.

## Main definitions

* `Completion`: how a computation ends
* `Exceptional σ α`: the computations on states in `σ`
* `Exceptional.noexcept`, `Exceptional.tryCatch`, `Exceptional.onExit`: the functions that promise
  not to throw, the handlers, and what is done on the way out
* `Exceptional.next`, `Exceptional.promised`, `Exceptional.handled`, `Exceptional.left`: the same
  for the result of the first part
-/

universe u v

/-- How a computation ends: it returns, an exception leaves it, the program is terminated, or it has
no meaning. -/
inductive Completion (α : Type u)
  | returns (a : α)
  | throws
  | terminates
  | undefined
  deriving DecidableEq

namespace Completion

/-- The program goes on: the computation has returned or thrown. -/
def GoesOn {α : Type u} : Completion α → Prop
  | .returns _ | .throws => True
  | .terminates | .undefined => False

instance {α : Type u} : DecidablePred (GoesOn (α := α))
  | .returns _ | .throws => .isTrue trivial
  | .terminates | .undefined => .isFalse id

end Completion

/-- A computation on states. -/
def Exceptional (σ : Type v) (α : Type u) := σ → Completion α × σ

namespace Exceptional

variable {σ : Type v} {α β : Type u}

/-- Only a computation that returns is followed by the next one. -/
def next : Completion α × σ → (α → Exceptional σ β) → Completion β × σ
  | (.returns a, s), f => f a s
  | (.throws, s), _ => (.throws, s)
  | (.terminates, s), _ => (.terminates, s)
  | (.undefined, s), _ => (.undefined, s)

/-- An exception that would leave a function with a promise. -/
def promised : Completion α × σ → Completion α × σ
  | (.throws, s) => (.terminates, s)
  | r => r

/-- An exception that is handled. -/
def handled (handler : Exceptional σ α) : Completion α × σ → Completion α × σ
  | (.throws, s) => handler s
  | r => r

/-- A scope that is left. -/
def left (f : σ → σ) : Completion α × σ → Completion α × σ
  | (.returns a, s) => (.returns a, f s)
  | (.throws, s) => (.throws, f s)
  | r => r

instance : Monad (Exceptional σ) where
  pure a := fun s => (.returns a, s)
  bind m f := fun s => next (m s) f

/-- A computation that only changes the state. -/
def update (f : σ → σ) : Exceptional σ PUnit := fun s => (.returns ⟨⟩, f s)

/-- A computation without a meaning. -/
def undefined : Exceptional σ α := fun s => (.undefined, s)

/-- The value that is there; without one the computation has no meaning. -/
def ofOption : Option α → Exceptional σ α
  | some a => pure a
  | none => undefined

/-- An exception. -/
def throw : Exceptional σ α := fun s => (.throws, s)

/-- A function that is declared `noexcept`. -/
def noexcept (m : Exceptional σ α) : Exceptional σ α := fun s => promised (m s)

/-- `try { m } catch (...) { handler }`. -/
def tryCatch (m handler : Exceptional σ α) : Exceptional σ α := fun s => handled handler (m s)

/-- `m` with what the destructors of its local variables do, when it returns or throws. -/
def onExit (m : Exceptional σ α) (f : σ → σ) : Exceptional σ α := fun s => left f (m s)

section Apply

variable (m : Exceptional σ α) (f : α → Exceptional σ β) (g : σ → σ) (a : α) (s : σ)

@[simp] theorem pure_apply : (pure a : Exceptional σ α) s = (.returns a, s) := rfl

@[simp ↓] theorem bind_apply : (m >>= f) s = next (m s) f := rfl

@[simp] theorem update_apply : update g s = (.returns ⟨⟩, g s) := rfl

@[simp] theorem undefined_apply : (undefined : Exceptional σ α) s = (.undefined, s) := rfl

@[simp] theorem ofOption_some : (ofOption (some a) : Exceptional σ α) = pure a := rfl

@[simp] theorem ofOption_none : (ofOption none : Exceptional σ α) = undefined := rfl

@[simp] theorem throw_apply : (throw : Exceptional σ α) s = (.throws, s) := rfl

@[simp ↓] theorem noexcept_apply : noexcept m s = promised (m s) := rfl

@[simp ↓] theorem tryCatch_apply (handler : Exceptional σ α) :
    tryCatch m handler s = handled handler (m s) := rfl

@[simp ↓] theorem onExit_apply : onExit m g s = left g (m s) := rfl

@[simp] theorem next_returns : next (.returns a, s) f = f a s := rfl

@[simp] theorem next_throws : next (.throws, s) f = (.throws, s) := rfl

@[simp] theorem next_terminates : next (.terminates, s) f = (.terminates, s) := rfl

@[simp] theorem next_undefined : next (.undefined, s) f = (.undefined, s) := rfl

@[simp] theorem promised_returns : promised (.returns a, s) = (.returns a, s) := rfl

@[simp] theorem promised_throws :
    promised ((.throws, s) : Completion α × σ) = (.terminates, s) := rfl

@[simp] theorem promised_terminates :
    promised ((.terminates, s) : Completion α × σ) = (.terminates, s) := rfl

@[simp] theorem promised_undefined :
    promised ((.undefined, s) : Completion α × σ) = (.undefined, s) := rfl

@[simp] theorem handled_returns : handled m (.returns a, s) = (.returns a, s) := rfl

@[simp] theorem handled_throws : handled m (.throws, s) = m s := rfl

@[simp] theorem handled_terminates : handled m (.terminates, s) = (.terminates, s) := rfl

@[simp] theorem handled_undefined : handled m (.undefined, s) = (.undefined, s) := rfl

@[simp] theorem left_returns : left g (.returns a, s) = (.returns a, g s) := rfl

@[simp] theorem left_throws :
    left g ((.throws, s) : Completion α × σ) = (.throws, g s) := rfl

@[simp] theorem left_terminates :
    left g ((.terminates, s) : Completion α × σ) = (.terminates, s) := rfl

@[simp] theorem left_undefined :
    left g ((.undefined, s) : Completion α × σ) = (.undefined, s) := rfl

/-- No exception leaves a function with a promise. -/
@[simp] theorem promised_ne_throws (r : Completion α × σ) : (promised r).1 ≠ .throws := by
  obtain ⟨c, s⟩ := r
  cases c <;> simp

/-! What comes later is left alone until it is reached. -/

@[congr] theorem next_congr {r r' : Completion α × σ} (h : r = r') : next r f = next r' f := by
  rw [h]

@[congr] theorem handled_congr {r r' : Completion α × σ} (h : r = r') :
    handled m r = handled m r' := by
  rw [h]

end Apply

/-! ### Branches -/

section Branches

variable (p : Prop) [Decidable p] (m m' : Exceptional σ α) (r r' : Completion α × σ) (s : σ)

@[simp ↓] theorem ite_apply : (if p then m else m') s = if p then m s else m' s := by
  split_ifs <;> rfl

@[simp] theorem next_ite (f : α → Exceptional σ β) :
    next (if p then r else r') f = if p then next r f else next r' f :=
  apply_ite (next · f) p r r'

@[simp] theorem promised_ite :
    promised (if p then r else r') = if p then promised r else promised r' :=
  apply_ite promised p r r'

@[simp] theorem handled_ite (handler : Exceptional σ α) :
    handled handler (if p then r else r') = if p then handled handler r else handled handler r' :=
  apply_ite (handled handler) p r r'

@[simp] theorem left_ite (g : σ → σ) :
    left g (if p then r else r') = if p then left g r else left g r' :=
  apply_ite (left g) p r r'

end Branches

end Exceptional
