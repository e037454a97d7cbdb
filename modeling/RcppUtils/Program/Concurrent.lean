import Mathlib.Logic.Hydra
import Mathlib.Logic.Relation
import Mathlib.Data.Fintype.Defs
import Mathlib.Algebra.BigOperators.Group.Multiset.Basic
import Mathlib.Algebra.BigOperators.Group.Finset.Basic
import RcppUtils.Program.Basic

/-!
# Programs sharing a state

A pool of programs shares one state; a step runs one call of one program. Interference between
the programs is described by a preorder on states: `Meets h R Q p s` says that `p`, started in
`s`, only makes steps in `R` and ends in `Q`, whatever steps in `R` the others make in between.
Programs that each meet their own condition meet it in every interleaving, and every
interleaving ends.

## Main definitions

* `Program.Meets`: a program under interference
* `Program.Step`, `Program.Steps`: one step, and finitely many steps, of a pool

## Main results

* `Program.Meets.bind`, `Program.Meets.call`: the rules for sequences and calls
* `Program.Meets.run`: a program run alone is a program without interference
* `Program.meets_of_steps`: conditions met separately are met in every interleaving
* `Program.not_infinite_steps`: every interleaving is finite
-/

universe u v w

namespace Program

variable {Op : Type u} {Reply : Op → Type v} {α β S : Type w}

/-! ## A program under interference -/

section Interference

variable (h : Handler Op Reply S) (R : S → S → Prop)

/-- The program `p`, started in `s` among others that make steps in `R`, makes steps in `R` and
ends in `Q`. -/
def Meets (Q : α → S → Prop) : Program Op Reply α → S → Prop
  | ret a, s => ∀ s₁, R s s₁ → Q a s₁
  | call op k, s => ∀ s₁, R s s₁ → R s₁ (h op s₁).2 ∧ Meets Q (k (h op s₁).1) (h op s₁).2

variable {h R} {Q : α → S → Prop}

/-- What a program meets is stable under the steps of the others. -/
theorem Meets.stable [IsTrans S R] {p : Program Op Reply α} {s s' : S}
    (hp : Meets h R Q p s) (hs : R s s') : Meets h R Q p s' := by
  cases p with
  | ret a => exact fun s₁ h₁ => hp s₁ (IsTrans.trans _ _ _ hs h₁)
  | call op k => exact fun s₁ h₁ => hp s₁ (IsTrans.trans _ _ _ hs h₁)

theorem Meets.call {op : Op} {k : Reply op → Program Op Reply α} {s : S}
    (hR : ∀ s₁, R s s₁ → R s₁ (h op s₁).2)
    (hk : ∀ s₁, R s s₁ → Meets h R Q (k (h op s₁).1) (h op s₁).2) :
    Meets h R Q (call op k) s :=
  fun s₁ h₁ => ⟨hR s₁ h₁, hk s₁ h₁⟩

/-- The sequence rule. -/
theorem Meets.bind [Std.Refl R] {Q' : β → S → Prop} {p : Program Op Reply α}
    {f : α → Program Op Reply β} {s : S} (hp : Meets h R Q p s)
    (hf : ∀ a s', Q a s' → Meets h R Q' (f a) s') : Meets h R Q' (p >>= f) s := by
  induction p generalizing s with
  | ret a => exact hf a s (hp s (refl s))
  | call op k ih => exact fun s₁ h₁ => ⟨(hp s₁ h₁).1, ih _ (hp s₁ h₁).2⟩

/-- A program run alone meets its condition, and its whole run is a step in `R`. -/
theorem Meets.run [Std.Refl R] [IsTrans S R] {p : Program Op Reply α} {s : S}
    (hp : Meets h R Q p s) : Q (p.run h s).1 (p.run h s).2 ∧ R s (p.run h s).2 := by
  induction p generalizing s with
  | ret a => exact ⟨hp s (refl s), refl s⟩
  | call op k ih =>
    obtain ⟨h₁, h₂⟩ := hp s (refl s)
    obtain ⟨hQ, hR⟩ := ih _ h₂
    exact ⟨hQ, IsTrans.trans _ _ _ h₁ hR⟩

end Interference

/-! ## Pools of programs -/

section Pool

variable {ι : Type} [DecidableEq ι] (h : ι → Handler Op Reply S)

/-- One step of a pool: some program makes its next call. -/
inductive Step : (ι → Program Op Reply α) × S → (ι → Program Op Reply α) × S → Prop
  | call {ps : ι → Program Op Reply α} {s : S} (i : ι) (op : Op)
      (k : Reply op → Program Op Reply α) (hi : ps i = .call op k) :
      Step (ps, s) (Function.update ps i (k (h i op s).1), (h i op s).2)

/-- Finitely many steps of a pool, in any order. -/
abbrev Steps : (ι → Program Op Reply α) × S → (ι → Program Op Reply α) × S → Prop :=
  Relation.ReflTransGen (Step h)

variable {h} {R : S → S → Prop} [Std.Refl R] [IsTrans S R] {Q : ι → α → S → Prop}

/-- A step of the pool is a step in `R`, and keeps what every program meets. -/
theorem meets_of_step {c c' : (ι → Program Op Reply α) × S} (hstep : Step h c c')
    (hc : ∀ i, Meets (h i) R (Q i) (c.1 i) c.2) :
    R c.2 c'.2 ∧ ∀ i, Meets (h i) R (Q i) (c'.1 i) c'.2 := by
  obtain ⟨i, op, k, hi⟩ := hstep
  rename_i ps s
  have hcall : Meets (h i) R (Q i) (call op k) s := hi ▸ hc i
  -- the program `i` moves on, and the others are stable under its step
  obtain ⟨hR, hk⟩ := hcall s (refl s)
  refine ⟨hR, ?_⟩
  intro j
  by_cases hj : j = i
  · subst hj
    simpa using hk
  · simpa [Function.update_of_ne hj] using (hc j).stable hR

/-- **Conditions met separately are met in every interleaving.** -/
theorem meets_of_steps {c c' : (ι → Program Op Reply α) × S} (hsteps : Steps h c c')
    (hc : ∀ i, Meets (h i) R (Q i) (c.1 i) c.2) :
    R c.2 c'.2 ∧ ∀ i, Meets (h i) R (Q i) (c'.1 i) c'.2 := by
  induction hsteps with
  | refl => exact ⟨refl _, hc⟩
  | tail _ hstep ih =>
    obtain ⟨hR, hc'⟩ := ih
    obtain ⟨hR', hc''⟩ := meets_of_step hstep hc'
    exact ⟨IsTrans.trans _ _ _ hR hR', hc''⟩

/-- A pool without a next step has returned everywhere. -/
theorem exists_ret_of_not_step {c : (ι → Program Op Reply α) × S}
    (hc : ∀ c', ¬ Step h c c') (i : ι) : ∃ a, c.1 i = ret a := by
  obtain ⟨ps, s⟩ := c
  cases hi : ps i with
  | ret a => exact ⟨a, hi⟩
  | call op k => exact absurd (Step.call i op k hi) (hc _)

/-! ### Every interleaving ends -/

/-- `p` is a continuation of `q` after one call. -/
def Continues (p q : Program Op Reply α) : Prop :=
  ∃ op k, q = call op k ∧ ∃ r, p = k r

theorem continues_wellFounded : WellFounded (@Continues Op Reply α) := by
  refine ⟨?_⟩
  intro p
  induction p with
  | ret a => exact ⟨_, fun q ⟨op, k, hq, _⟩ => by cases hq⟩
  | call op k ih =>
    refine ⟨_, ?_⟩
    rintro q ⟨op', k', hq, r, hr⟩
    cases hq
    exact hr ▸ ih r

variable [Fintype ι]

/-- The programs of a pool, as a multiset. -/
def remaining (c : (ι → Program Op Reply α) × S) : Multiset (Program Op Reply α) :=
  Finset.univ.val.map c.1

omit [Std.Refl R] [IsTrans S R] in
/-- A step replaces one program of the multiset by a continuation of it. -/
theorem cutExpand_remaining {c c' : (ι → Program Op Reply α) × S} (hstep : Step h c c') :
    Relation.CutExpand Continues (remaining c') (remaining c) := by
  obtain ⟨i, op, k, hi⟩ := hstep
  rename_i ps s
  have hmem : i ∈ (Finset.univ : Finset ι).val := Finset.mem_univ i
  obtain ⟨t, ht⟩ := Multiset.exists_cons_of_mem hmem
  have hnd : i ∉ t := by
    have := (Finset.univ : Finset ι).nodup
    rw [ht, Multiset.nodup_cons] at this
    exact this.1
  have hmap : t.map (Function.update ps i (k (h i op s).1)) = t.map ps :=
    Multiset.map_congr rfl fun j hj =>
      Function.update_of_ne (ne_of_mem_of_not_mem hj hnd) _ _
  -- the other programs stay, so one element is exchanged
  simp only [remaining, ht, Multiset.map_cons, Function.update_self, hmap, hi]
  rw [← Multiset.singleton_add, ← Multiset.singleton_add]
  exact Relation.cutExpand_single_add ⟨op, k, rfl, _, rfl⟩ _

/-- **Every interleaving is finite.** -/
theorem not_infinite_steps (c : ℕ → (ι → Program Op Reply α) × S) :
    ¬ ∀ n, Step h (c n) (c (n + 1)) := by
  intro hc
  have : IsWellFounded _ (Relation.CutExpand (@Continues Op Reply α)) :=
    ⟨continues_wellFounded.cutExpand⟩
  -- the multiset of programs would decrease for ever
  obtain ⟨n, hn⟩ := WellFounded.not_rel_apply_succ
    (r := Relation.CutExpand Continues) fun n => remaining (c n)
  exact hn (cutExpand_remaining (hc n))

end Pool

end Program
