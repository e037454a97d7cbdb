import Mathlib.Algebra.BigOperators.Group.List.Basic
import Mathlib.Data.List.DropRight
import Mathlib.Data.List.Rotate

/-!
# Ring buffers

A buffer of fixed length that is overwritten in turn holds the last values written to it. Read
from the next slot to be overwritten, it is a queue with the oldest value first.

## Main definitions

* `RingBuffer.contents buffer next`: the values of a buffer, the oldest first

## Main results

* `RingBuffer.contents_set`: overwriting the next slot drops the oldest value of the queue
* `RingBuffer.sum_set`: the sum of a buffer after one slot is overwritten
* `RingBuffer.rtake_concat_of_le`: the last values of a history that grows
-/

namespace RingBuffer

variable {α : Type*}

/-- The values of the buffer whose next slot to be overwritten is `next`, the oldest first. -/
def contents (buffer : List α) (next : ℕ) : List α := buffer.rotate next

theorem contents_mod (buffer : List α) (next : ℕ) :
    contents buffer (next % buffer.length) = contents buffer next :=
  buffer.rotate_mod next

/-- The buffer around its next slot. -/
theorem exists_eq_append {buffer : List α} {next : ℕ} (h : next < buffer.length) :
    ∃ newer old older, buffer = newer ++ old :: older ∧ newer.length = next :=
  ⟨buffer.take next, buffer[next], buffer.drop (next + 1),
    by rw [← List.drop_eq_getElem_cons h, List.take_append_drop], by simp [h.le]⟩

/-- Overwriting the next slot drops the oldest value and appends the new one. -/
theorem contents_set {buffer : List α} {next : ℕ} (h : next < buffer.length) (v : α) :
    contents (buffer.set next v) (next + 1) = (contents buffer next).tail ++ [v] := by
  obtain ⟨newer, old, older, rfl, rfl⟩ := exists_eq_append h
  have hset : (newer ++ old :: older).set newer.length v = (newer ++ [v]) ++ older := by simp
  have hlen : newer.length + 1 = (newer ++ [v]).length := by simp
  rw [contents, contents, hset, hlen, List.rotate_append_length_eq,
    List.rotate_append_length_eq, List.cons_append, List.tail_cons, List.append_assoc]

/-- The next slot to be overwritten holds the oldest value. -/
theorem contents_eq_cons {buffer : List α} {next : ℕ} {old : α} (h : buffer[next]? = some old) :
    contents buffer next = old :: (contents buffer next).tail := by
  obtain ⟨hlt, rfl⟩ := List.getElem?_eq_some_iff.mp h
  obtain ⟨newer, old, older, rfl, rfl⟩ := exists_eq_append hlt
  simp [contents]

theorem sum_contents [AddCommMonoid α] (buffer : List α) (next : ℕ) :
    (contents buffer next).sum = buffer.sum :=
  (buffer.rotate_perm next).sum_eq

/-- The sum of a buffer after one slot is overwritten. -/
theorem sum_set [AddCommGroup α] {buffer : List α} {next : ℕ} {old : α}
    (h : buffer[next]? = some old) (v : α) :
    (buffer.set next v).sum = buffer.sum - old + v := by
  obtain ⟨hlt, rfl⟩ := List.getElem?_eq_some_iff.mp h
  rw [List.sum_set', dif_pos hlt, sub_eq_add_neg, add_assoc]

/-- The last `w` values of a history of at least `w` values, after one more. -/
theorem rtake_concat_of_le {w : ℕ} (hw : 0 < w) {h : List α} (hh : w ≤ h.length) (v : α) :
    (h ++ [v]).rtake w = (h.rtake w).tail ++ [v] := by
  obtain ⟨w, rfl⟩ := Nat.exists_eq_add_of_lt hw
  rw [Nat.zero_add, List.rtake_concat_succ, List.rtake.eq_def, List.rtake.eq_def, List.tail_drop]
  congr 2
  omega

/-- The last `w` values without the oldest of them. -/
theorem tail_rtake {w : ℕ} (hw : 0 < w) {h : List α} (hh : w ≤ h.length) :
    (h.rtake w).tail = h.rtake (w - 1) := by
  rw [List.rtake.eq_def, List.rtake.eq_def, List.tail_drop]
  congr 1
  omega

/-- The last values of two histories in a row. -/
theorem rtake_append (h h' : List α) (w : ℕ) :
    (h ++ h').rtake w = h.rtake (w - h'.length) ++ h'.rtake w := by
  rw [List.rtake.eq_def, List.rtake.eq_def, List.rtake.eq_def, List.drop_append,
    List.length_append]
  rcases le_total w h'.length with hw | hw
  · simp [List.drop_of_length_le, show w - h'.length = 0 by omega,
      show h.length ≤ h.length + h'.length - w by omega,
      show h.length + h'.length - w - h.length = h'.length - w by omega]
  · congr 2 <;> omega

end RingBuffer
