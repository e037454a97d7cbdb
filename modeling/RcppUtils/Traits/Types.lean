import Mathlib.Data.Option.Basic

/-!
# C++ types with pointers

The types that are built from base types by raw pointers, `std::shared_ptr` and `std::unique_ptr`
with the default deleter, with qualifiers at every level and a reference outside. Qualifiers at one
level are a set: their order and repetition do not count. The type traits of the standard library
are functions on these types.

## Main definitions

* `ObjectType B`, `CxxType B`: the types without and with an outer reference
* `removeReference`, `removeCv`, `removeVolatile`, `stdIsPointer`, `stdRemovePointer`: the traits
* `getType`: the type of a call of the member function `get`
* `ObjectType.elementType`, `ObjectType.IsSmartPointer`: the pointer forms
* `CxxType.addLvalueReference`, `CxxType.addRvalueReference`: references, which collapse
-/

namespace Cxx

/-- The qualifiers at one level of a type. -/
structure Qualifiers where
  isConst : Bool
  isVolatile : Bool
  deriving DecidableEq

/-- No qualifier. -/
def Qualifiers.none : Qualifiers := ⟨false, false⟩

/-- A type without a reference, over the base types `B`: its form, and the qualifiers at its
top. -/
inductive ObjectType (B : Type)
  | base (cv : Qualifiers) (b : B)
  | pointer (cv : Qualifiers) (element : ObjectType B)
  | sharedPtr (cv : Qualifiers) (element : ObjectType B)
  | uniquePtr (cv : Qualifiers) (element : ObjectType B)
  deriving DecidableEq

/-- The two kinds of references. -/
inductive Reference
  | lvalue | rvalue
  deriving DecidableEq

/-- A type, with the reference outside it, if there is one. -/
structure CxxType (B : Type) where
  reference : Option Reference
  object : ObjectType B
  deriving DecidableEq

variable {B : Type}

namespace ObjectType

/-- The type that a pointer form points to. -/
def elementType : ObjectType B → Option (ObjectType B)
  | base _ _ => none
  | pointer _ t | sharedPtr _ t | uniquePtr _ t => some t

/-- One of the two smart pointers, with any qualifiers. -/
def IsSmartPointer : ObjectType B → Prop
  | base _ _ | pointer _ _ => False
  | sharedPtr _ _ | uniquePtr _ _ => True

instance : DecidablePred (IsSmartPointer (B := B))
  | base _ _ | pointer _ _ => .isFalse id
  | sharedPtr _ _ | uniquePtr _ _ => .isTrue trivial

theorem IsSmartPointer.exists_elementType {t : ObjectType B} (h : t.IsSmartPointer) :
    ∃ u, t.elementType = some u := by
  cases t with
  | base cv b | pointer cv u => cases h
  | sharedPtr cv u | uniquePtr cv u => exact ⟨u, rfl⟩

/-- The type with other qualifiers at its top. -/
def withQualifiers (f : Qualifiers → Qualifiers) : ObjectType B → ObjectType B
  | base cv b => base (f cv) b
  | pointer cv t => pointer (f cv) t
  | sharedPtr cv t => sharedPtr (f cv) t
  | uniquePtr cv t => uniquePtr (f cv) t

end ObjectType

namespace CxxType

/-- A type without a reference. -/
def ofObject (t : ObjectType B) : CxxType B := ⟨none, t⟩

/-- `T &`. -/
def addLvalueReference (t : CxxType B) : CxxType B := { t with reference := some .lvalue }

/-- `T &&`, which is `T` if this is a reference. -/
def addRvalueReference (t : CxxType B) : CxxType B :=
  { t with reference := t.reference.or (some .rvalue) }

end CxxType

/-! ## The traits of the standard library -/

/-- `std::remove_reference<T>::type`. -/
def removeReference (t : CxxType B) : CxxType B := .ofObject t.object

/-- Qualifiers are changed at the top of a type; a reference has none there. -/
def mapQualifiers (f : Qualifiers → Qualifiers) (t : CxxType B) : CxxType B :=
  match t.reference with
  | none => .ofObject (t.object.withQualifiers f)
  | some _ => t

/-- `std::remove_cv<T>::type`. -/
def removeCv : CxxType B → CxxType B := mapQualifiers fun _ => .none

/-- `std::remove_volatile<T>::type`. -/
def removeVolatile : CxxType B → CxxType B :=
  mapQualifiers fun cv => { cv with isVolatile := false }

/-- `std::is_pointer<T>::value`. -/
def stdIsPointer : CxxType B → Bool
  | ⟨none, .pointer _ _⟩ => true
  | _ => false

/-- `std::remove_pointer<T>::type`. -/
def stdRemovePointer : CxxType B → CxxType B
  | ⟨none, .pointer _ t⟩ => .ofObject t
  | t => t

/-- The type of `std::declval<T>().get()`: a raw pointer to the element type. There is no such
member of a volatile object, or of an object of another type. -/
def getType (t : CxxType B) : Option (CxxType B) :=
  match t.object with
  | .sharedPtr cv u | .uniquePtr cv u =>
    if cv.isVolatile then none else some (.ofObject (.pointer .none u))
  | _ => none

end Cxx
