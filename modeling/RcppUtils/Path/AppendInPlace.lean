import RcppUtils.Path.Operations

/-!
# Appending in place

`operator/=` writes to its left operand statement by statement, and reads its right operand again
in each of them. For two objects this is `operator/` on a copy of the left one. When both operands
are one object, the separator that the first write adds is read as a part of the right operand.

## Main definitions

* `appendInPlace x y σ`: the statements of `operator/=` on the variables `x` and `y`
* `AgreesWithDivide x σ`: `x /= x` leaves the string of `x / x`

## Main results

* `appendInPlace_of_ne`: on two objects, the statements append
* `agreesWithDivide_iff`: when appending a path to itself agrees with joining
-/

namespace RcppUtils

namespace Path

/-- An assignment to the member `path_` of a variable. -/
def Store.setPath (σ : Store) (x : ℕ) (s : StdString) : Store :=
  Function.update σ x { σ x with path := s }

/-- An assignment to the member `path_as_vector_` of a variable. -/
def Store.setPathAsVector (σ : Store) (x : ℕ) (cs : List StdString) : Store :=
  Function.update σ x { σ x with pathAsVector := cs }

/-- The statements of `operator/=` on the POSIX build, for `*this` in the variable `x` and `other`
in `y`. A vector that is inserted into itself, which the language leaves undefined, is repeated. -/
def appendInPlace (x y : ℕ) (σ : Store) : Store :=
  if (σ y).isAbsolute .posix then
    let σ := σ.setPath x (σ y).path
    σ.setPathAsVector x (σ y).pathAsVector
  else
    let σ :=
      if (σ x).path = [] ∨ (σ x).path.getLast? ≠ some (kPreferredSeparator .posix) then
        σ.setPath x ((σ x).path ++ [kPreferredSeparator .posix])
      else σ
    let σ := σ.setPath x ((σ x).path ++ (σ y).path)
    σ.setPathAsVector x ((σ x).pathAsVector ++ (σ y).pathAsVector)

section Store

variable (σ : Store) (x : ℕ) (s : StdString) (cs : List StdString)

/-- The second of two writes to one member stays. -/
@[simp] theorem Store.setPath_setPath (t : StdString) :
    (σ.setPath x s).setPath x t = σ.setPath x t := by
  simp [Store.setPath]

/-- Writing both members writes the variable. -/
@[simp] theorem Store.setPathAsVector_setPath :
    (σ.setPath x s).setPathAsVector x cs = Function.update σ x ⟨s, cs⟩ := by
  simp [Store.setPath, Store.setPathAsVector]

@[simp] theorem Store.setPath_self : σ.setPath x s x = { σ x with path := s } :=
  Function.update_self _ _ _

variable {x} {y : ℕ} (h : y ≠ x)

include h

theorem Store.setPath_of_ne : σ.setPath x s y = σ y :=
  Function.update_of_ne h _ _

end Store

/-- The first write of a relative append. -/
theorem setPath_separator (σ : Store) (x : ℕ) :
    (if (σ x).path = [] ∨ (σ x).path.getLast? ≠ some (kPreferredSeparator .posix) then
      σ.setPath x ((σ x).path ++ [kPreferredSeparator .posix]) else σ) =
      σ.setPath x (withSeparator .posix (σ x).path) := by
  unfold withSeparator
  split_ifs
  · rfl
  · exact (Function.update_eq_self x σ).symm

/-- **On two objects the statements append**, and change nothing else. -/
theorem appendInPlace_of_ne {x y : ℕ} (h : x ≠ y) (σ : Store) :
    appendInPlace x y σ = Function.update σ x ((σ x).append .posix (σ y)) := by
  have hy := h.symm
  rw [appendInPlace, setPath_separator, append]
  split_ifs
  · simp [Store.setPath_of_ne _ _ hy]
  · simp [Store.setPath_of_ne _ _ hy]

/-! ## One object -/

/-- The separator that is added to the left operand is added to the right one as well. -/
theorem appendInPlace_self_path {x : ℕ} {σ : Store} (h : (σ x).isAbsolute .posix = false) :
    (appendInPlace x x σ x).path =
      withSeparator .posix (σ x).path ++ withSeparator .posix (σ x).path := by
  rw [appendInPlace, setPath_separator, if_neg (by simp [h])]
  simp

/-- `x /= x` leaves the string of `x / x`. -/
def AgreesWithDivide (x : ℕ) (σ : Store) : Prop :=
  (appendInPlace x x σ x).path = ((σ x).append .posix (σ x)).path

/-- **Appending a path to itself agrees with joining exactly when** no separator is added: the path
is absolute, or ends in a separator. -/
theorem agreesWithDivide_iff (x : ℕ) (σ : Store) :
    AgreesWithDivide x σ ↔
      (σ x).isAbsolute .posix = true ∨ (σ x).path.getLast? = some '/' := by
  rw [AgreesWithDivide]
  cases habs : (σ x).isAbsolute .posix with
  | true =>
    refine iff_of_true ?_ (.inl rfl)
    rw [append_of_isAbsolute habs, appendInPlace, if_pos habs]
    simp
  | false =>
    rw [appendInPlace_self_path habs, append_of_not_isAbsolute habs, List.append_cancel_left_eq]
    rcases eq_or_ne (σ x).path [] with hnil | hne
    · rw [hnil, withSeparator_nil]
      simp
    · rw [withSeparator_of_ne_nil hne]
      split_ifs with hlast <;> simp [hlast]

/-- `foo` becomes `foo/foo/`, and `foo / foo` is `foo/foo`. -/
theorem not_agreesWithDivide_foo :
    ∃ σ, Machine.run exec [.construct 0 "foo".toList] (fun _ => default) = some σ ∧
      ¬ AgreesWithDivide 0 σ := by
  refine ⟨_, rfl, ?_⟩
  unfold AgreesWithDivide
  decide

end Path

end RcppUtils
