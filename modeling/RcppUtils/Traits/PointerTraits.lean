import RcppUtils.Traits.Types

/-!
# Pointer traits

`is_pointer` and `remove_pointer` extend the traits of the standard library to smart pointers.
Both strip the reference of their argument, but `remove_pointer` asks for a smart pointer before it
does so, and a reference is none.

## Main definitions

* `isPointer`, `removePointer`: the two traits
* `SeesThrough t`: what the traits should say of a type
* `Uniform t`: they say the same of a type and of references to it

## Main results

* `isPointer_iff`: `is_pointer` sees through references and qualifiers
* `removePointer_of_object`, `removePointer_of_reference`: what `remove_pointer` does
* `seesThrough_iff`: where the traits are right
-/

namespace RcppUtils

open Cxx

variable {B : Type}

namespace Details

/-- `is_smart_pointer_helper`: the specialisations match types without qualifiers. -/
def isSmartPointerHelper : CxxType B → Bool
  | ⟨none, .sharedPtr ⟨false, false⟩ _⟩ => true
  | ⟨none, .uniquePtr ⟨false, false⟩ _⟩ => true
  | _ => false

/-- `is_smart_pointer<T>::value`. -/
def isSmartPointer (t : CxxType B) : Bool := isSmartPointerHelper (removeCv t)

/-- `details::remove_pointer<T, is_smart_pointer>::type`; `none` where it is ill-formed. -/
def removePointer (t : CxxType B) : Bool → Option (CxxType B)
  | false => some (stdRemovePointer t)
  | true => (getType (removeVolatile t)).map stdRemovePointer

end Details

/-- `is_pointer<T>::value`. -/
def isPointer (t : CxxType B) : Bool :=
  stdIsPointer (removeReference t) || Details.isSmartPointer (removeReference t)

/-- `remove_pointer<T>::type`. -/
def removePointer (t : CxxType B) : Option (CxxType B) :=
  Details.removePointer (removeReference t) (Details.isSmartPointer t)

/-! ## What the traits say -/

/-- The type is a pointer when it is one of the pointer forms without its reference and its
qualifiers, and what is removed is the pointer to the element type. -/
structure SeesThrough (t : CxxType B) : Prop where
  isPointer_iff : isPointer t = true ↔ t.object.elementType.isSome = true
  removePointer_eq : ∀ u, t.object.elementType = some u → removePointer t = some (.ofObject u)

/-- Both traits give the same answer for `T`, `T &` and `T &&`. -/
structure Uniform (t : CxxType B) : Prop where
  isPointer_lvalue : isPointer t.addLvalueReference = isPointer t
  isPointer_rvalue : isPointer t.addRvalueReference = isPointer t
  removePointer_lvalue : removePointer t.addLvalueReference = removePointer t
  removePointer_rvalue : removePointer t.addRvalueReference = removePointer t

/-- A smart pointer is seen through its qualifiers. -/
theorem isSmartPointer_ofObject (t : ObjectType B) :
    Details.isSmartPointer (.ofObject t) = decide t.IsSmartPointer := by
  cases t <;> rfl

/-- A reference is no smart pointer. -/
theorem isSmartPointer_of_reference {t : CxxType B} (h : t.reference ≠ none) :
    Details.isSmartPointer t = false := by
  obtain ⟨reference, object⟩ := t
  cases reference with
  | none => exact absurd rfl h
  | some r => cases object <;> rfl

theorem isPointer_iff (t : CxxType B) :
    isPointer t = true ↔ t.object.elementType.isSome = true := by
  rw [isPointer, removeReference, isSmartPointer_ofObject]
  cases t.object <;> exact Iff.rfl

/-- Without a reference, the element type is found. -/
theorem removePointer_of_object {t u : ObjectType B} (h : t.elementType = some u) :
    removePointer (.ofObject t) = some (.ofObject u) := by
  cases t with
  | base cv b => cases h
  | pointer cv t | sharedPtr cv t | uniquePtr cv t =>
    obtain rfl : t = u := Option.some_inj.mp h
    rfl

/-- Behind a reference, only raw pointers are removed. -/
theorem removePointer_of_reference {t : CxxType B} (h : t.reference ≠ none) :
    removePointer t = some (stdRemovePointer (.ofObject t.object)) := by
  rw [removePointer, isSmartPointer_of_reference h]
  rfl

theorem isPointer_eq_of_object {s t : CxxType B} (h : s.object = t.object) :
    isPointer s = isPointer t := by
  rw [isPointer, isPointer, removeReference, removeReference, h]

/-- The trait of the standard library leaves a smart pointer as it is, which is not its element
type. -/
theorem removePointer_eq_iff_of_reference {t : CxxType B} (h : t.reference ≠ none) :
    removePointer t = removePointer (.ofObject t.object) ↔ ¬ t.object.IsSmartPointer := by
  rw [removePointer_of_reference h]
  cases t.object with
  | base cv b | pointer cv u => exact iff_of_true rfl id
  | sharedPtr cv u | uniquePtr cv u =>
    refine iff_of_false ?_ (not_not.mpr trivial)
    rw [removePointer_of_object rfl]
    intro he
    have hsize := congrArg (fun t => sizeOf t.object) (Option.some_inj.mp he)
    simp [stdRemovePointer, CxxType.ofObject] at hsize

/-- Without a reference, the traits see through all qualifiers. -/
theorem seesThrough_ofObject (t : ObjectType B) : SeesThrough (.ofObject t) :=
  ⟨isPointer_iff _, fun _ => removePointer_of_object⟩

/-- Behind a reference, they see through as far as the reference makes no difference. -/
theorem seesThrough_iff_of_reference {t : CxxType B} (h : t.reference ≠ none) :
    SeesThrough t ↔ ¬ t.object.IsSmartPointer := by
  have hiff := removePointer_eq_iff_of_reference h
  have hobject := seesThrough_ofObject t.object
  constructor
  · intro hsees hsmart
    obtain ⟨u, hu⟩ := hsmart.exists_elementType
    exact hiff.mp ((hsees.removePointer_eq u hu).trans (hobject.removePointer_eq u hu).symm) hsmart
  · intro hsmart
    refine ⟨isPointer_iff t, ?_⟩
    intro u hu
    rw [hiff.mpr hsmart]
    exact hobject.removePointer_eq u hu

theorem uniform_iff_removePointer (t : CxxType B) :
    Uniform t ↔ removePointer t.addLvalueReference = removePointer t ∧
      removePointer t.addRvalueReference = removePointer t :=
  ⟨fun h => ⟨h.removePointer_lvalue, h.removePointer_rvalue⟩,
    fun h => ⟨isPointer_eq_of_object rfl, isPointer_eq_of_object rfl, h.1, h.2⟩⟩

/-- **The traits see through references and qualifiers exactly when** the type is no reference to a
smart pointer. They agree on `T`, `T &` and `T &&` exactly when `T` is no smart pointer without a
reference. -/
theorem seesThrough_iff (t : CxxType B) :
    (SeesThrough t ↔ (t.reference ≠ none → ¬ t.object.IsSmartPointer)) ∧
      (Uniform t ↔ (t.reference = none → ¬ t.object.IsSmartPointer)) := by
  rw [uniform_iff_removePointer]
  have hl : t.addLvalueReference.reference ≠ none := Option.some_ne_none _
  have hr : t.addRvalueReference.reference ≠ none := by
    cases h : t.reference <;> simp [CxxType.addRvalueReference, h]
  by_cases href : t.reference = none
  · obtain ⟨_, t⟩ := t
    obtain rfl := href
    have hlvalue := removePointer_eq_iff_of_reference hl
    have hrvalue := removePointer_eq_iff_of_reference hr
    refine ⟨iff_of_true (seesThrough_ofObject t) fun h => absurd rfl h, ?_⟩
    constructor
    · intro h _
      exact hlvalue.mp h.1
    · intro h
      exact ⟨hlvalue.mpr (h rfl), hrvalue.mpr (h rfl)⟩
  · refine ⟨?_, iff_of_true ?_ fun h => absurd h href⟩
    · rw [seesThrough_iff_of_reference href]
      simp [href]
    · -- references collapse to references
      rw [removePointer_of_reference hl, removePointer_of_reference hr,
        removePointer_of_reference href]
      exact ⟨rfl, rfl⟩

/-- `std::shared_ptr<T>` for a base type `T`. -/
def sharedPtrOfBase (b : B) : CxxType B := .ofObject (.sharedPtr .none (.base .none b))

/-- `std::shared_ptr<T> &` is a pointer, and nothing is removed from it. -/
theorem not_seesThrough_sharedPtr_lvalue :
    isPointer (sharedPtrOfBase ()).addLvalueReference = true ∧
      ¬ SeesThrough (sharedPtrOfBase ()).addLvalueReference ∧ ¬ Uniform (sharedPtrOfBase ()) := by
  refine ⟨rfl, ?_, ?_⟩
  · intro h
    have hremove := h.removePointer_eq (.base .none ()) rfl
    revert hremove
    decide
  · intro h
    have hremove := h.removePointer_lvalue
    revert hremove
    decide

end RcppUtils
