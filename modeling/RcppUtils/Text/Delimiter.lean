import Mathlib.Data.List.Destutter
import Mathlib.Data.List.DropRight

/-!
# Sequences around a delimiter

A sequence is cut in two at its last delimiter, and runs of delimiters are squeezed to one.

## Main definitions

* `chop d s`: the sequence without one final delimiter
* `before d s`, `after d s`: what stands before the last delimiter, and behind it
* `squeeze d s`: the sequence with single delimiters only

## Main results

* `before_append_cons`, `after_append_cons`: the parts around the last delimiter
* `before_intercalate_concat`, `after_intercalate_concat`: the parts of joined pieces
* `squeeze_concat`, `squeeze_append`: what is added at the end of a squeezed sequence
-/

namespace Delimiter

variable {α : Type*} [DecidableEq α]

/-- The sequence without one final delimiter. -/
def chop (d : α) (s : List α) : List α := if s.getLast? = some d then s.dropLast else s

/-- What stands before the last delimiter; nothing, if there is none. -/
def before (d : α) (s : List α) : List α := (s.rdropWhile (· ≠ d)).dropLast

/-- What stands behind the last delimiter; everything, if there is none. -/
def after (d : α) (s : List α) : List α := s.rtakeWhile (· ≠ d)

/-- Not both are delimiters. -/
def NotBoth (d a b : α) : Prop := a ≠ d ∨ b ≠ d

instance (d : α) : DecidableRel (NotBoth d) := fun _ _ => inferInstanceAs (Decidable (_ ∨ _))

/-- The sequence with each run of delimiters squeezed to one. -/
def squeeze (d : α) (s : List α) : List α := s.destutter (NotBoth d)

variable {d a : α} {s u v w : List α}

/-! ## The last delimiter -/

theorem chop_concat (d : α) (s : List α) : chop d (s ++ [d]) = s := by
  simp [chop]

theorem chop_of_getLast?_ne (h : s.getLast? ≠ some d) : chop d s = s := if_neg h

theorem forall_reverse_ne (h : d ∉ w) : ∀ a ∈ w.reverse, decide (a ≠ d) = true := by
  intro a ha
  simpa using ne_of_mem_of_not_mem (List.mem_reverse.mp ha) h

theorem before_append_cons (u : List α) (h : d ∉ w) : before d (u ++ d :: w) = u := by
  rw [before, List.rdropWhile, List.reverse_append, List.reverse_cons, List.append_assoc,
    List.dropWhile_append_of_pos (forall_reverse_ne h)]
  simp

theorem after_append_cons (u : List α) (h : d ∉ w) : after d (u ++ d :: w) = w := by
  rw [after, List.rtakeWhile, List.reverse_append, List.reverse_cons, List.append_assoc,
    List.takeWhile_append_of_pos (forall_reverse_ne h)]
  simp

theorem after_of_notMem (h : d ∉ w) : after d w = w := by
  rw [after, List.rtakeWhile_eq_self_iff]
  intro a ha
  simpa using ne_of_mem_of_not_mem ha h

theorem before_of_notMem (h : d ∉ w) : before d w = [] := by
  have hnil : w.rdropWhile (· ≠ d) = [] := by
    rw [List.rdropWhile_eq_nil_iff]
    intro a ha
    simpa using ne_of_mem_of_not_mem ha h
  rw [before, hnil, List.dropLast_nil]

/-! ## Joined pieces -/

omit [DecidableEq α] in
theorem intercalate_cons (d : α) (u : List α) (us : List (List α)) :
    [d].intercalate (u :: us) = u ++ us.flatMap (d :: ·) := by
  induction us generalizing u with
  | nil => simp
  | cons v us ih =>
    rw [List.intercalate_cons_cons, ih, List.flatMap_cons, List.append_assoc]
    rfl

omit [DecidableEq α] in
theorem intercalate_concat (sep : List α) {us : List (List α)} (hus : us ≠ []) (w : List α) :
    sep.intercalate (us ++ [w]) = sep.intercalate us ++ (sep ++ w) := by
  induction us with
  | nil => exact absurd rfl hus
  | cons u us ih =>
    rcases eq_or_ne us [] with rfl | hne
    · rw [List.singleton_append, List.intercalate_cons_cons, List.intercalate_singleton,
        List.intercalate_singleton, List.append_assoc]
    · rw [List.cons_append, List.intercalate_cons_of_ne_nil (by simp), ih hne,
        List.intercalate_cons_of_ne_nil hne]
      simp only [List.append_assoc]

omit [DecidableEq α] in
theorem mem_intercalate_concat (us : List (List α)) (h : d ∉ w) :
    d ∈ [d].intercalate (us ++ [w]) ↔ us ≠ [] := by
  by_cases hus : us = []
  · simp [hus, h]
  · simp [intercalate_concat [d] hus, hus]

/-- **The last piece** stands behind the last delimiter. -/
theorem after_intercalate_concat (us : List (List α)) (h : d ∉ w) :
    after d ([d].intercalate (us ++ [w])) = w := by
  by_cases hus : us = []
  · rw [hus, List.nil_append, List.intercalate_singleton, after_of_notMem h]
  · rw [intercalate_concat [d] hus, List.singleton_append, after_append_cons _ h]

/-- **The other pieces** stand before the last delimiter. -/
theorem before_intercalate_concat (us : List (List α)) (h : d ∉ w) :
    before d ([d].intercalate (us ++ [w])) = [d].intercalate us := by
  by_cases hus : us = []
  · rw [hus, List.nil_append, List.intercalate_singleton, before_of_notMem h, List.intercalate_nil]
  · rw [intercalate_concat [d] hus, List.singleton_append, before_append_cons _ h]

/-! ## Single delimiters -/

@[simp] theorem squeeze_nil (d : α) : squeeze d [] = [] := rfl

@[simp] theorem squeeze_singleton (d a : α) : squeeze d [a] = [a] := rfl

@[simp] theorem squeeze_eq_nil : squeeze d s = [] ↔ s = [] :=
  List.destutter_eq_nil _

/-- No run of delimiters is left. -/
theorem isChain_squeeze (d : α) (s : List α) :
    (squeeze d s).IsChain (NotBoth d) :=
  List.isChain_destutter _ s

/-- One delimiter in front of another one is dropped. -/
theorem squeeze_cons_cons (d : α) (s : List α) : squeeze d (d :: d :: s) = squeeze d (d :: s) := by
  simp [squeeze, List.destutter_cons', NotBoth]

/-- The induction is on the sequence in between: only its last element meets the new one. -/
theorem destutter'_concat (a b : α) (s : List α) :
    (s ++ [a]).destutter' (NotBoth d) b = s.destutter' (NotBoth d) b ++
      if a = d ∧ (b :: s).getLast? = some d then [] else [a] := by
  induction s generalizing b with
  | nil =>
    simp only [List.nil_append, List.destutter'_singleton, List.destutter'_nil,
      List.getLast?_singleton]
    by_cases ha : a = d <;> by_cases hb : b = d <;> simp [ha, hb, NotBoth]
  | cons c s ih =>
    by_cases h : NotBoth d b c
    · rw [List.cons_append, List.destutter'_cons_pos (h := h),
        List.destutter'_cons_pos (h := h), ih, List.cons_append, List.getLast?_cons_cons]
    · obtain ⟨rfl, rfl⟩ : b = d ∧ c = d := by simpa [NotBoth] using h
      rw [List.cons_append, List.destutter'_cons_neg (h := h),
        List.destutter'_cons_neg (h := h), ih, List.getLast?_cons_cons]

/-- **What is added at the end** is dropped if it is a second delimiter. -/
theorem squeeze_concat (d a : α) (s : List α) :
    squeeze d (s ++ [a]) = squeeze d s ++ if a = d ∧ s.getLast? = some d then [] else [a] := by
  cases s with
  | nil => simp
  | cons b s =>
    rw [List.cons_append, squeeze, squeeze, List.destutter_cons', List.destutter_cons',
      destutter'_concat]

/-- A piece without delimiters stays as it is. -/
theorem squeeze_append (s : List α) (h : d ∉ w) : squeeze d (s ++ w) = squeeze d s ++ w := by
  induction w using List.reverseRecOn with
  | nil => simp
  | append_singleton w a ih =>
    have ha : a ≠ d := by
      rintro rfl
      simp at h
    rw [← List.append_assoc, squeeze_concat, ih fun hd => h (List.mem_append_left _ hd),
      if_neg fun hc => ha hc.1, List.append_assoc]

theorem getLast?_squeeze (d : α) (s : List α) : (squeeze d s).getLast? = s.getLast? := by
  induction s using List.reverseRecOn with
  | nil => rfl
  | append_singleton s a ih =>
    rw [squeeze_concat, List.getLast?_concat]
    split_ifs with h
    · rw [List.append_nil, ih, h.2, h.1]
    · exact List.getLast?_concat

end Delimiter
