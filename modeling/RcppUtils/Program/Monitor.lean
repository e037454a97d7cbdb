import RcppUtils.Program.Basic
import RcppUtils.Program.Machine

/-!
# Monitors

A monitor is a machine that watches the calls of a program, each with the state it is made in. A
condition on single calls may depend on the state of the monitor. What a part of a program
returns, where it leaves the monitor, and when all its calls meet the condition are found together.

## Main definitions

* `Program.Watched`: the result of a watched program

## Main results

* `Program.Watched.bind`, `Program.Watched.call`: the rules for sequences and calls
* `Program.everyStep_call`, `Program.Watched.everyStep_bind`: the condition alone
-/

universe u v w

namespace Program

variable {Op : Type u} {Reply : Op → Type v} {α β S : Type w} {G : Type*}
  (h : Handler Op Reply S) (step : Op × S → G → Option G) (C : Op × S → G → Prop)

/-- The program `p`, started in `s` with the monitor in `g`, returns `a` and leaves `s'` and `g'`.
All its calls meet the condition `C` exactly when `E` holds. -/
structure Watched (p : Program Op Reply α) (s : S) (g : G) (a : α) (s' : S) (g' : G) (E : Prop) :
    Prop where
  run : p.run h s = (a, s')
  watch : Machine.run step (p.calls h s) g = some g'
  meets : Machine.EveryStep step C (p.calls h s) g ↔ E

variable {h step C}

/-- A call meets the condition, and what follows it does. -/
theorem everyStep_call {op : Op} {k : Reply op → Program Op Reply α} {s : S} {g g₁ : G}
    (hg : step (op, s) g = some g₁) :
    Machine.EveryStep step C ((call op k).calls h s) g ↔
      C (op, s) g ∧ Machine.EveryStep step C ((k (h op s).1).calls h (h op s).2) g₁ := by
  rw [calls_call]
  simp [Machine.EveryStep, hg]

theorem Watched.congr {p : Program Op Reply α} {s s' : S} {g g' : G} {a : α} {E E' : Prop}
    (hp : Watched h step C p s g a s' g' E) (hE : E ↔ E') : Watched h step C p s g a s' g' E' :=
  ⟨hp.run, hp.watch, hp.meets.trans hE⟩

theorem Watched.ret (a : α) (s : S) (g : G) :
    Watched h step C (ret a) s g a s g True :=
  ⟨rfl, rfl, Iff.rfl⟩

theorem Watched.call {op : Op} {k : Reply op → Program Op Reply α} {s s' : S} {g g₁ g' : G} {a : α}
    {E : Prop} (hg : step (op, s) g = some g₁)
    (hk : Watched h step C (k (h op s).1) (h op s).2 g₁ a s' g' E) :
    Watched h step C (call op k) s g a s' g' (C (op, s) g ∧ E) where
  run := hk.run
  watch := by
    rw [calls_call, Machine.run, hg]
    exact hk.watch
  meets := by rw [everyStep_call hg, hk.meets]

/-- A single call. -/
theorem Watched.single {op : Op} (f : Reply op → α) {s : S} {g g₁ : G}
    (hg : step (op, s) g = some g₁) :
    Watched h step C (Program.call op fun r => Program.ret (f r)) s g (f (h op s).1) (h op s).2 g₁
      (C (op, s) g) := by
  have hcall : Watched h step C (Program.call op fun r => Program.ret (f r)) s g (f (h op s).1)
      (h op s).2 g₁ (C (op, s) g ∧ True) := Watched.call hg (Watched.ret _ _ _)
  exact hcall.congr (and_iff_left trivial)

/-- Behind a watched program, the condition is met as in the rest. -/
theorem Watched.everyStep_bind {p : Program Op Reply α} {f : α → Program Op Reply β} {s s₁ : S}
    {g g₁ : G} {a : α} {E : Prop} (hp : Watched h step C p s g a s₁ g₁ E) :
    Machine.EveryStep step C ((p >>= f).calls h s) g ↔
      E ∧ Machine.EveryStep step C ((f a).calls h s₁) g₁ := by
  rw [calls_bind, hp.run, Machine.everyStep_append hp.watch, hp.meets]

/-- **The sequence rule.** -/
theorem Watched.bind {p : Program Op Reply α} {f : α → Program Op Reply β} {s s₁ s' : S}
    {g g₁ g' : G} {a : α} {b : β} {E E' : Prop} (hp : Watched h step C p s g a s₁ g₁ E)
    (hf : Watched h step C (f a) s₁ g₁ b s' g' E') :
    Watched h step C (p >>= f) s g b s' g' (E ∧ E') where
  run := by rw [run_bind, hp.run, hf.run]
  watch := by rw [calls_bind, hp.run, Machine.run_append, hp.watch, Option.bind_some, hf.watch]
  meets := by rw [hp.everyStep_bind, hf.meets]

end Program
