import Mathlib.Data.List.Basic
import Mathlib.Data.List.Count

/-!
# Cutting a sequence from the end

The occurrences of an element are counted from the end of a sequence, and the sequence is cut just
before one of them.

## Main definitions

* `CutsBefore d k s t`: `t` is `s`, cut before its `k`-th `d` from the end

## Main results

* `CutsBefore.trans`: cuts add up
* `CutsBefore.prefix_iff`: which parts of a sequence survive a cut
-/

variable {α : Type*} [DecidableEq α] {d : α} {m n k : ℕ} {s t u v : List α}

/-- `t` is `s` cut just before its `k`-th `d`, counted from the end. Nothing is cut for `k = 0`. -/
def CutsBefore (d : α) (k : ℕ) (s t : List α) : Prop :=
  ∃ v, s = t ++ v ∧ v.count d = k ∧ (v = [] ∨ v.head? = some d)

namespace CutsBefore

theorem refl (d : α) (s : List α) : CutsBefore d 0 s s :=
  ⟨[], by simp, rfl, .inl rfl⟩

/-- The cut at the last `d`. -/
theorem last (u : List α) (hv : d ∉ v) : CutsBefore d 1 (u ++ d :: v) u :=
  ⟨d :: v, rfl, by simp [List.count_eq_zero.mpr hv], .inr rfl⟩

theorem count_eq (h : CutsBefore d k s t) : s.count d = t.count d + k := by
  obtain ⟨v, rfl, rfl, -⟩ := h
  exact List.count_append

/-- **Cuts add up.** -/
theorem trans (h : CutsBefore d m s t) (h' : CutsBefore d n t u) : CutsBefore d (n + m) s u := by
  obtain ⟨v, rfl, rfl, hv⟩ := h
  obtain ⟨w, rfl, rfl, hw⟩ := h'
  refine ⟨w ++ v, List.append_assoc _ _ _, List.count_append, ?_⟩
  rcases hw with rfl | hw
  · simpa using hv
  · right
    simp [hw]

/-- **A first part survives a cut exactly when** there are enough `d` behind it. -/
theorem prefix_iff (h : CutsBefore d k (u ++ v) t) : u <+: t ↔ k ≤ v.count d := by
  obtain ⟨w, he, rfl, hw⟩ := h
  constructor
  · rintro ⟨t, rfl⟩
    -- what is cut off is an end of the second part
    rw [List.append_assoc, List.append_cancel_left_eq] at he
    rw [he, List.count_append]
    omega
  · intro hle
    rcases List.prefix_or_prefix_of_prefix (List.prefix_append u v) (he ▸ List.prefix_append t w)
      with hut | ⟨x, rfl⟩
    · exact hut
    · -- a `d` of the first part would be cut off, so nothing of it is
      rw [List.append_assoc, List.append_cancel_left_eq] at he
      rw [← he, List.count_append] at hle
      have hx : d ∉ x := List.count_eq_zero.mp (by omega)
      rcases List.eq_nil_or_concat x with rfl | ⟨y, c, rfl⟩
      · simp
      · rcases hw with rfl | hw
        · simp at he
        · refine absurd (List.mem_of_mem_head? ?_) hx
          rw [← he, List.head?_append_of_ne_nil _ (by simp)] at hw
          exact hw

end CutsBefore
