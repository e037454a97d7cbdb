import Mathlib.Data.List.Basic

/-!
# Programs over operations

A program returns a value or calls an operation and continues with its reply. A handler gives
the operations their meaning on a state: the reply and the next state. A program run alone under
a handler is a function of the state; the calls it makes on the way are its trace.

## Main definitions

* `Program Op Reply α`: programs with results in `α`
* `Handler Op Reply S`: the meaning of the operations on the states `S`
* `Program.run`, `Program.calls`: the result and the calls of a program run alone
* `Program.lift`: a program among programs with more operations

## Main results

* `Program.run_bind`, `Program.calls_bind`: a sequence runs its parts one after the other
* `Program.run_invariant`: what every call of a run preserves holds of its final state
-/

universe u v w

/-- A program with results in `α`: it returns, or it calls an operation and continues with the
reply. -/
inductive Program (Op : Type u) (Reply : Op → Type v) (α : Type w)
  | ret (a : α)
  | call (op : Op) (k : Reply op → Program Op Reply α)

/-- The meaning of the operations on states: the reply and the next state. -/
abbrev Handler (Op : Type u) (Reply : Op → Type v) (S : Type w) :=
  (op : Op) → S → Reply op × S

namespace Program

variable {Op : Type u} {Reply : Op → Type v} {α β S : Type w}

/-- Sequencing: continue with `f` at the result. -/
protected def bind : Program Op Reply α → (α → Program Op Reply β) → Program Op Reply β
  | ret a, f => f a
  | call op k, f => call op fun r => (k r).bind f

instance : Monad (Program Op Reply) where
  pure := ret
  bind := Program.bind

/-- The program that calls `op` and returns its reply. -/
def perform {Op : Type u} {Reply : Op → Type w} (op : Op) : Program Op Reply (Reply op) :=
  call op ret

@[simp] theorem ret_bind (a : α) (f : α → Program Op Reply β) : (ret a >>= f) = f a := rfl

@[simp] theorem pure_eq_ret (a : α) : (pure a : Program Op Reply α) = ret a := rfl

@[simp] theorem call_bind (op : Op) (k : Reply op → Program Op Reply α)
    (f : α → Program Op Reply β) : (call op k >>= f) = call op fun r => k r >>= f := rfl

@[simp] theorem perform_bind {Op : Type u} {Reply : Op → Type w} {β : Type w} (op : Op)
    (f : Reply op → Program Op Reply β) : (perform op >>= f) = call op f := rfl

section Run

variable (h : Handler Op Reply S)

/-- The result and the final state of a program run alone. -/
def run : Program Op Reply α → S → α × S
  | ret a, s => (a, s)
  | call op k, s => (k (h op s).1).run (h op s).2

/-- The calls of a program run alone, in order, each with the state it is made in. -/
def calls : Program Op Reply α → S → List (Op × S)
  | ret _, _ => []
  | call op k, s => (op, s) :: (k (h op s).1).calls (h op s).2

@[simp] theorem run_ret (a : α) (s : S) : (ret a : Program Op Reply α).run h s = (a, s) := rfl

@[simp] theorem run_call (op : Op) (k : Reply op → Program Op Reply α) (s : S) :
    (call op k).run h s = (k (h op s).1).run h (h op s).2 := rfl

@[simp] theorem calls_ret (a : α) (s : S) : (ret a : Program Op Reply α).calls h s = [] := rfl

@[simp] theorem calls_call (op : Op) (k : Reply op → Program Op Reply α) (s : S) :
    (call op k).calls h s = (op, s) :: (k (h op s).1).calls h (h op s).2 := rfl

theorem run_bind (p : Program Op Reply α) (f : α → Program Op Reply β) (s : S) :
    (p >>= f).run h s = (f (p.run h s).1).run h (p.run h s).2 := by
  induction p generalizing s with
  | ret a => rfl
  | call op k ih => exact ih _ _

theorem calls_bind (p : Program Op Reply α) (f : α → Program Op Reply β) (s : S) :
    (p >>= f).calls h s = p.calls h s ++ (f (p.run h s).1).calls h (p.run h s).2 := by
  induction p generalizing s with
  | ret a => rfl
  | call op k ih => simpa using ih _ _

variable {h}

/-- **The invariant rule**: what every call of the run preserves holds of its final state. -/
theorem run_invariant {I : S → Prop} {p : Program Op Reply α} {s : S}
    (hstep : ∀ c ∈ p.calls h s, I c.2 → I (h c.1 c.2).2) (hs : I s) : I (p.run h s).2 := by
  induction p generalizing s with
  | ret a => exact hs
  | call op k ih =>
    simp only [calls_call, List.forall_mem_cons] at hstep
    exact ih _ hstep.2 (hstep.1 hs)

end Run

/-! ## More operations -/

section Lift

variable {Op' : Type u} {Reply' : Op' → Type v} (f : Op → Op')
  (g : ∀ op, Reply' (f op) → Reply op)

/-- The program among programs with more operations: `f op` stands for `op`, and `g` reads its
reply. -/
def lift : Program Op Reply α → Program Op' Reply' α
  | ret a => ret a
  | call op k => call (f op) fun r => (k (g op r)).lift

@[simp] theorem lift_ret (a : α) : (ret a : Program Op Reply α).lift f g = ret a := rfl

@[simp] theorem lift_call (op : Op) (k : Reply op → Program Op Reply α) :
    (call op k).lift f g = call (f op) fun r => (k (g op r)).lift f g := rfl

variable {f g} {h : Handler Op Reply S} {h' : Handler Op' Reply' S}

/-- Where the operations mean the same, the programs do. -/
theorem run_lift (hh : ∀ op s, g op (h' (f op) s).1 = (h op s).1 ∧ (h' (f op) s).2 = (h op s).2)
    (p : Program Op Reply α) (s : S) : (p.lift f g).run h' s = p.run h s := by
  induction p generalizing s with
  | ret a => rfl
  | call op k ih =>
    obtain ⟨hreply, hstate⟩ := hh op s
    rw [lift_call, run_call, run_call, ih, hreply, hstate]

end Lift

end Program
