import RcppUtils.Posix.CString
import RcppUtils.Program.Exception
import RcppUtils.Program.Machine
import RcppUtils.Program.Objects
import RcppUtils.Text.Split

/-!
# The class `rcpputils::SharedLibrary`

An object keeps the structure of a loaded library, and unloads the library when it is destroyed.
The generated copy operations copy the structure, and with it the handle of the library.

## Main definitions

* `Rcutils`: loading, unloading and looking up symbols, as the class uses them
* `SharedLibrary.construct`, `SharedLibrary.destructor`, `SharedLibrary.unloadLibrary`,
  `SharedLibrary.getSymbol`: the functions of the class
* `SharedLibrary.Op`, `SharedLibrary.step`: what a program does with objects
* `ReleasedOnce`: every handle is released exactly once, and not used afterwards
* `Owned op s`: the operation `op` keeps each handle in one object

## Main results

* `owners_step_iff`: an operation keeps one owner for each handle exactly when it is `Owned`
* `everyState_releasedOnce`: programs with such operations release every handle once
-/

namespace RcppUtils

open Posix

/-- `rcutils_shared_library_t`: the handle and the path; none of them when nothing is loaded. -/
structure SharedLibraryT (Handle : Type) where
  libPointer : Option Handle
  libraryPath : Option StdString
  deriving DecidableEq

/-- `rcutils_get_zero_initialized_shared_library()`. -/
def SharedLibraryT.zero {Handle : Type} : SharedLibraryT Handle :=
  { libPointer := none, libraryPath := none }

/-- What happens to a handle. -/
inductive LibraryEvent (Handle : Type)
  | loaded (lib : Handle)
  | unloaded (lib : Handle)
  | unloadFailed (lib : Handle)
  | used (lib : Handle)
  deriving DecidableEq

/-- The handle of an event. -/
def LibraryEvent.handle {Handle : Type} : LibraryEvent Handle → Handle
  | loaded lib | unloaded lib | unloadFailed lib | used lib => lib

/-- The errors of `rcutils`: the return code for a failed allocation, or another one with the
error string. -/
inductive RcutilsError
  | badAlloc
  | other (errorString : String)

/-- The functions of `rcutils`, by what they do with handles. Their answers depend on what happened
before. Unloading a loaded library may fail, and then resets the structure or leaves it. -/
structure Rcutils (Handle : Type) where
  load : List (LibraryEvent Handle) → List Char → Except RcutilsError Handle
  unload : List (LibraryEvent Handle) → Handle → Except String Unit
  resetsOnFailure : Bool
  symbol : List (LibraryEvent Handle) → Handle → List Char → Except String ℕ
  /-- The error string for a structure without a loaded library. -/
  notLoaded : String
  /-- A successful load returns a fresh handle. -/
  load_fresh : ∀ {log path lib}, load log path = .ok lib → ∀ e ∈ log, e.handle ≠ lib

namespace Rcutils

variable {Handle : Type} (r : Rcutils Handle) (log : List (LibraryEvent Handle))

/-- `rcutils_load_shared_library`: the structure that it fills, and what happened. -/
def loadSharedLibrary (path : List Char) :
    Except RcutilsError (SharedLibraryT Handle) × List (LibraryEvent Handle) :=
  match r.load log path with
  | .error e => (.error e, log)
  | .ok lib => (.ok { libPointer := some lib, libraryPath := some path }, log ++ [.loaded lib])

/-- `rcutils_unload_shared_library`. -/
def unloadSharedLibrary (lib : SharedLibraryT Handle) :
    Except String Unit × SharedLibraryT Handle × List (LibraryEvent Handle) :=
  match lib.libPointer with
  | none => (.error r.notLoaded, lib, log)
  | some h =>
    match r.unload log h with
    | .ok () => (.ok (), .zero, log ++ [.unloaded h])
    | .error e => (.error e, if r.resetsOnFailure then .zero else lib, log ++ [.unloadFailed h])

/-- `rcutils_get_symbol`. -/
def getSymbol (lib : SharedLibraryT Handle) (name : List Char) :
    Except String ℕ × List (LibraryEvent Handle) :=
  match lib.libPointer with
  | none => (.error r.notLoaded, log)
  | some h => (r.symbol log h name, log ++ [.used h])

/-- `rcutils_is_shared_library_loaded`. -/
def isLoaded (lib : SharedLibraryT Handle) : Bool := lib.libPointer.isSome

end Rcutils

/-- The class `SharedLibrary`. The generated copy operations copy the member. -/
structure SharedLibrary (Handle : Type) where
  lib : SharedLibraryT Handle
  deriving DecidableEq

namespace SharedLibrary

variable {Handle : Type} (r : Rcutils Handle)

section Functions

variable (log : List (LibraryEvent Handle)) (self : SharedLibrary Handle)

/-- The constructor. An exception leaves no object. -/
def construct (libraryPath : StdString) :
    Except StdException (SharedLibrary Handle) × List (LibraryEvent Handle) :=
  match r.loadSharedLibrary log (cStr libraryPath) with
  | (.ok lib, log) => (.ok ⟨lib⟩, log)
  | (.error .badAlloc, log) => (.error .badAlloc, log)
  | (.error (.other errorString), log) => (.error (.runtimeError errorString), log)

/-- The destructor. An error is printed only. -/
def destructor : List (LibraryEvent Handle) :=
  if Rcutils.isLoaded self.lib then (r.unloadSharedLibrary log self.lib).2.2 else log

/-- `unload_library()`. -/
def unloadLibrary :
    Except StdException Unit × SharedLibrary Handle × List (LibraryEvent Handle) :=
  match r.unloadSharedLibrary log self.lib with
  | (.ok (), lib, log) => (.ok (), ⟨lib⟩, log)
  | (.error errorString, lib, log) => (.error (.runtimeError errorString), ⟨lib⟩, log)

/-- `get_symbol(symbol_name)`. -/
def getSymbol (symbolName : StdString) :
    Except StdException ℕ × List (LibraryEvent Handle) :=
  match r.getSymbol log self.lib (cStr symbolName) with
  | (.ok symbol, log) => (.ok symbol, log)
  | (.error errorString, log) => (.error (.runtimeError errorString), log)

end Functions

/-! ## Programs with libraries -/

/-- A program's objects, and what happened to the handles. -/
structure State (Handle : Type) where
  objects : Objects (SharedLibrary Handle)
  log : List (LibraryEvent Handle)

/-- A program before its first object. -/
def init : State Handle := { objects := [], log := [] }

/-- The operations on objects `i` and `j`. -/
inductive Op
  | construct (libraryPath : StdString)
  | copyConstruct (i : ℕ)
  | copyAssign (i j : ℕ)
  | unloadLibrary (i : ℕ)
  | getSymbol (i : ℕ) (symbolName : StdString)
  | destroy (i : ℕ)

/-- The objects after a construction, which may have thrown. -/
def addConstructed (objects : Objects (SharedLibrary Handle)) :
    Except StdException (SharedLibrary Handle) → Objects (SharedLibrary Handle)
  | .ok a => objects.construct a
  | .error _ => objects

/-- The effect of an operation; one on an object that does not live is not permitted. -/
def step (op : Op) (s : State Handle) : Option (State Handle) :=
  match op with
  | .construct libraryPath => some
      { objects := addConstructed s.objects (construct r s.log libraryPath).1
        log := (construct r s.log libraryPath).2 }
  | .copyConstruct i => (s.objects.live? i).map fun other =>
      { s with objects := s.objects.construct other }
  | .copyAssign i j => (s.objects.live? i).bind fun _ => (s.objects.live? j).map fun other =>
      { s with objects := s.objects.assign i other }
  | .unloadLibrary i => (s.objects.live? i).map fun self =>
      { objects := s.objects.assign i (unloadLibrary r s.log self).2.1
        log := (unloadLibrary r s.log self).2.2 }
  | .getSymbol i symbolName => (s.objects.live? i).map fun self =>
      { s with log := (getSymbol r s.log self symbolName).2 }
  | .destroy i => (s.objects.live? i).map fun self =>
      { objects := s.objects.destroy i self, log := destructor r s.log self }

/-! ## Handles that are released once -/

/-- No event on a handle follows its release. -/
def NoUseAfterRelease (log : List (LibraryEvent Handle)) : Prop :=
  log.Pairwise fun older e => older ≠ .unloaded e.handle

variable [DecidableEq Handle]

instance (log : List (LibraryEvent Handle)) : Decidable (NoUseAfterRelease log) :=
  inferInstanceAs (Decidable (log.Pairwise _))

/-- No handle is used after its release, and when all objects are destroyed, every handle was
released exactly once. -/
def ReleasedOnce (s : State Handle) : Prop :=
  NoUseAfterRelease s.log ∧
    (s.objects.AllDestroyed → ∀ h, .loaded h ∈ s.log → s.log.count (.unloaded h) = 1)

/-- What keeps every handle in one object: no object with a library is copied, no assignment
changes a handle, and unloading does not fail for good. -/
def Owned (op : Op) (s : State Handle) : Prop :=
  match op with
  | .construct _ | .getSymbol _ _ => True
  | .copyConstruct i => ∀ other, s.objects.live? i = some other → other.lib.libPointer = none
  | .copyAssign i j => ∀ self other, s.objects.live? i = some self →
      s.objects.live? j = some other → self.lib.libPointer = other.lib.libPointer
  | .unloadLibrary i => ∀ self, s.objects.live? i = some self → ∀ h,
      self.lib.libPointer = some h → r.unload s.log h = .ok () ∨ r.resetsOnFailure = false
  | .destroy i => ∀ self, s.objects.live? i = some self → ∀ h,
      self.lib.libPointer = some h → r.unload s.log h = .ok ()

/-! ### One owner for each handle -/

/-- A living object with the handle `h`. -/
def Owns (h : Handle) (slot : Slot (SharedLibrary Handle)) : Bool :=
  slot.alive && slot.value.lib.libPointer = some h

/-- The handle was loaded, and not released so far. -/
def Unreleased (h : Handle) (log : List (LibraryEvent Handle)) : Prop :=
  .loaded h ∈ log ∧ .unloaded h ∉ log

instance (h : Handle) (log : List (LibraryEvent Handle)) : Decidable (Unreleased h log) :=
  inferInstanceAs (Decidable (_ ∧ _))

/-- Each handle that is not released has one owner, and released ones have none. -/
structure OneOwner (s : State Handle) : Prop where
  countP_owns : ∀ h, s.objects.countP (Owns h) = if Unreleased h s.log then 1 else 0
  noUse : NoUseAfterRelease s.log

omit [DecidableEq Handle] in
theorem noUseAfterRelease_append {log : List (LibraryEvent Handle)} {e : LibraryEvent Handle} :
    NoUseAfterRelease (log ++ [e]) ↔ NoUseAfterRelease log ∧ .unloaded e.handle ∉ log := by
  simp only [NoUseAfterRelease, List.pairwise_append, List.pairwise_singleton, true_and,
    List.mem_singleton, forall_eq]
  refine and_congr_right fun _ => ?_
  constructor
  · intro h hmem
    exact h _ hmem rfl
  · rintro h older hmem rfl
    exact h hmem

omit [DecidableEq Handle] in
/-- Events on a handle that neither load nor release it. -/
theorem unreleased_append_iff {h : Handle} {log : List (LibraryEvent Handle)}
    {e : LibraryEvent Handle} (hload : e ≠ .loaded h) (hunload : e ≠ .unloaded h) :
    Unreleased h (log ++ [e]) ↔ Unreleased h log := by
  simp [Unreleased, hload.symm, hunload.symm]

variable {r} {s : State Handle} {i : ℕ} {a : SharedLibrary Handle}

@[simp] theorem owns_dead (h : Handle) (a : SharedLibrary Handle) : Owns h ⟨a, false⟩ = false := rfl

theorem owns_alive (h : Handle) (a : SharedLibrary Handle) :
    Owns h ⟨a, true⟩ = decide (a.lib.libPointer = some h) := rfl

theorem owns_of_none {slot : Slot (SharedLibrary Handle)} (hnone : slot.value.lib.libPointer = none)
    (h : Handle) : Owns h slot = false := by
  simp [Owns, hnone]

/-- The handle of a living object is not released. -/
theorem OneOwner.unreleased (hI : OneOwner s) (ha : s.objects.live? i = some a) {h : Handle}
    (hp : a.lib.libPointer = some h) : Unreleased h s.log := by
  have hpos : 0 < s.objects.countP (Owns h) :=
    List.countP_pos_iff.mpr ⟨_, Objects.mem_of_live? ha, by simp [owns_alive, hp]⟩
  by_contra hun
  rw [hI.countP_owns, if_neg hun] at hpos
  exact lt_irrefl 0 hpos

/-- Events on a handle in use keep the owners. -/
theorem OneOwner.append (hI : OneOwner s) (ha : s.objects.live? i = some a) {h : Handle}
    (hp : a.lib.libPointer = some h) {objects : Objects (SharedLibrary Handle)}
    (hcount : ∀ h, objects.countP (Owns h) = s.objects.countP (Owns h))
    {e : LibraryEvent Handle} (he : e.handle = h) (hload : ∀ h, e ≠ .loaded h)
    (hunload : ∀ h, e ≠ .unloaded h) : OneOwner ⟨objects, s.log ++ [e]⟩ := by
  constructor
  · intro h'
    simp only [hcount, hI.countP_owns, unreleased_append_iff (hload h') (hunload h')]
  · rw [noUseAfterRelease_append, he]
    exact ⟨hI.noUse, (hI.unreleased ha hp).2⟩

/-- A release by the owner, which has no handle afterwards. -/
theorem OneOwner.release (hI : OneOwner s) (ha : s.objects.live? i = some a) {h : Handle}
    (hp : a.lib.libPointer = some h) {slot : Slot (SharedLibrary Handle)}
    (hslot : ∀ h, Owns h slot = false) :
    OneOwner ⟨s.objects.set i slot, s.log ++ [.unloaded h]⟩ := by
  have hun := hI.unreleased ha hp
  constructor
  · -- the handle loses its owner when it is unloaded; the others keep theirs
    intro h'
    have hset := Objects.countP_set (Owns h') ha slot
    rw [hslot, hI.countP_owns, owns_alive, hp] at hset
    by_cases heq : h = h'
    · subst heq
      have hrel : ¬ Unreleased h (s.log ++ [.unloaded h]) := by simp [Unreleased]
      simp only [if_pos hun, decide_true, Bool.toNat_true, Bool.toNat_false] at hset
      simp only [if_neg hrel]
      omega
    · have hiff : Unreleased h' (s.log ++ [.unloaded h]) ↔ Unreleased h' s.log :=
        unreleased_append_iff (by simp) (by simpa using heq)
      simpa [heq, hiff] using hset
  · rw [noUseAfterRelease_append]
    exact ⟨hI.noUse, hun.2⟩

/-- A handle that its owner gives up without a release has no owner. -/
theorem OneOwner.not_of_lost (hI : OneOwner s) (ha : s.objects.live? i = some a) {h : Handle}
    (hp : a.lib.libPointer = some h) {slot : Slot (SharedLibrary Handle)}
    (hslot : Owns h slot = false) {log : List (LibraryEvent Handle)} (hun : Unreleased h log) :
    ¬ OneOwner ⟨s.objects.set i slot, log⟩ := by
  intro hI'
  have hset := Objects.countP_set (Owns h) ha slot
  have hcount := hI'.countP_owns h
  rw [hslot, hI.countP_owns, if_pos (hI.unreleased ha hp), owns_alive, hp] at hset
  simp only [if_pos hun] at hcount
  simp [hcount] at hset

/-- A change that no handle notices. -/
theorem countP_owns_set (ha : s.objects.live? i = some a) {slot : Slot (SharedLibrary Handle)}
    (hslot : ∀ h, Owns h slot = Owns h ⟨a, true⟩) (h : Handle) :
    (s.objects.set i slot).countP (Owns h) = s.objects.countP (Owns h) := by
  have hset := Objects.countP_set (Owns h) ha slot
  rw [hslot] at hset
  exact Nat.add_right_cancel hset

theorem OneOwner.of_countP (hI : OneOwner s) {objects : Objects (SharedLibrary Handle)}
    (hcount : ∀ h, objects.countP (Owns h) = s.objects.countP (Owns h)) :
    OneOwner ⟨objects, s.log⟩ :=
  ⟨fun h => (hcount h).trans (hI.countP_owns h), hI.noUse⟩

/-! ### What one operation does -/

omit [DecidableEq Handle] in
theorem construct_cases (r : Rcutils Handle) (log : List (LibraryEvent Handle))
    (libraryPath : StdString) :
    (∃ lib, r.load log (cStr libraryPath) = .ok lib ∧ construct r log libraryPath =
        (.ok ⟨⟨some lib, some (cStr libraryPath)⟩⟩, log ++ [.loaded lib])) ∨
      ∃ e, construct r log libraryPath = (.error e, log) := by
  cases h : r.load log (cStr libraryPath) with
  | ok lib => exact .inl ⟨lib, rfl, by simp [construct, Rcutils.loadSharedLibrary, h]⟩
  | error e =>
    right
    cases e <;> exact ⟨_, by simp [construct, Rcutils.loadSharedLibrary, h]; rfl⟩

omit [DecidableEq Handle] in
theorem unloadSharedLibrary_of_none {log : List (LibraryEvent Handle)}
    {lib : SharedLibraryT Handle} (hp : lib.libPointer = none) :
    r.unloadSharedLibrary log lib = (.error r.notLoaded, lib, log) := by
  simp [Rcutils.unloadSharedLibrary, hp]

omit [DecidableEq Handle] in
theorem unloadSharedLibrary_of_ok {log : List (LibraryEvent Handle)} {lib : SharedLibraryT Handle}
    {h : Handle} (hp : lib.libPointer = some h) (hok : r.unload log h = .ok ()) :
    r.unloadSharedLibrary log lib = (.ok (), .zero, log ++ [.unloaded h]) := by
  simp [Rcutils.unloadSharedLibrary, hp, hok]

omit [DecidableEq Handle] in
theorem unloadSharedLibrary_of_error {log : List (LibraryEvent Handle)}
    {lib : SharedLibraryT Handle} {h : Handle} (hp : lib.libPointer = some h) {e : String}
    (he : r.unload log h = .error e) :
    r.unloadSharedLibrary log lib =
      (.error e, if r.resetsOnFailure then .zero else lib, log ++ [.unloadFailed h]) := by
  simp [Rcutils.unloadSharedLibrary, hp, he]

omit [DecidableEq Handle] in
theorem unloadLibrary_eq (r : Rcutils Handle) (log : List (LibraryEvent Handle))
    (self : SharedLibrary Handle) :
    (unloadLibrary r log self).2 =
      (⟨(r.unloadSharedLibrary log self.lib).2.1⟩, (r.unloadSharedLibrary log self.lib).2.2) := by
  unfold unloadLibrary
  obtain ⟨result, lib, log⟩ := r.unloadSharedLibrary log self.lib
  cases result <;> rfl

omit [DecidableEq Handle] in
theorem getSymbol_snd (r : Rcutils Handle) (log : List (LibraryEvent Handle))
    (self : SharedLibrary Handle) (symbolName : StdString) :
    (getSymbol r log self symbolName).2 =
      log ++ (self.lib.libPointer.map LibraryEvent.used).toList := by
  unfold getSymbol Rcutils.getSymbol
  cases self.lib.libPointer with
  | none => simp
  | some h =>
    cases hs : r.symbol log h (cStr symbolName) <;> simp [hs]

omit [DecidableEq Handle] in
theorem unreleased_append_unloadFailed {h h' : Handle} {log : List (LibraryEvent Handle)} :
    Unreleased h (log ++ [.unloadFailed h']) ↔ Unreleased h log :=
  unreleased_append_iff (by simp) (by simp)

/-- A library that is loaded into a new object. -/
theorem OneOwner.construct (hI : OneOwner s) {lib : Handle} {path : Option StdString}
    (hfresh : ∀ e ∈ s.log, e.handle ≠ lib) :
    OneOwner ⟨s.objects.construct ⟨⟨some lib, path⟩⟩, s.log ++ [.loaded lib]⟩ := by
  have hnotLoaded : .loaded lib ∉ s.log := fun hmem => hfresh _ hmem rfl
  have hnotUnloaded : .unloaded lib ∉ s.log := fun hmem => hfresh _ hmem rfl
  constructor
  · intro h
    simp only [Objects.countP_construct, hI.countP_owns, owns_alive]
    by_cases heq : lib = h
    · subst heq
      simp [Unreleased, hnotLoaded, hnotUnloaded]
    · have hiff : Unreleased h (s.log ++ [.loaded lib]) ↔ Unreleased h s.log :=
        unreleased_append_iff (by simpa using heq) (by simp)
      simp [heq, hiff]
  · exact noUseAfterRelease_append.mpr ⟨hI.noUse, hnotUnloaded⟩

/-- A copy of an object with a library is a second owner. -/
theorem owners_copyConstruct_iff (hI : OneOwner s) (ha : s.objects.live? i = some a) :
    OneOwner ⟨s.objects.construct a, s.log⟩ ↔ a.lib.libPointer = none := by
  constructor
  · intro hI'
    by_contra hne
    obtain ⟨h, hp⟩ := Option.ne_none_iff_exists'.mp hne
    have hcount := hI'.countP_owns h
    have hun := hI.unreleased ha hp
    simp [Objects.countP_construct, hI.countP_owns, owns_alive, hp, hun] at hcount
  · intro hnone
    apply hI.of_countP
    intro h
    rw [Objects.countP_construct, owns_of_none hnone, Bool.toNat_false, Nat.add_zero]

/-- An assignment changes the owners unless both objects have the same handle. -/
theorem owners_copyAssign_iff (hI : OneOwner s) (ha : s.objects.live? i = some a)
    (b : SharedLibrary Handle) :
    OneOwner ⟨s.objects.assign i b, s.log⟩ ↔ a.lib.libPointer = b.lib.libPointer := by
  constructor
  · intro hI'
    apply Option.ext
    intro h
    have hset := Objects.countP_set (Owns h) ha ⟨b, true⟩
    have hcount := (hI'.countP_owns h).trans (hI.countP_owns h).symm
    rw [show (s.objects.set i ⟨b, true⟩).countP (Owns h) = s.objects.countP (Owns h) from hcount,
      Nat.add_left_cancel_iff, owns_alive, owns_alive] at hset
    by_cases h₁ : a.lib.libPointer = some h <;> by_cases h₂ : b.lib.libPointer = some h <;>
      simp_all
  · intro heq
    apply hI.of_countP
    apply countP_owns_set ha
    intro h
    rw [owns_alive, owns_alive, heq]

theorem owns_zero (h : Handle) (alive : Bool) : Owns h ⟨⟨.zero⟩, alive⟩ = false :=
  owns_of_none rfl h

/-- Unloading loses a handle only when it fails and resets the structure. -/
theorem owners_unload_iff (hI : OneOwner s) (ha : s.objects.live? i = some a) :
    OneOwner ⟨s.objects.assign i ⟨(r.unloadSharedLibrary s.log a.lib).2.1⟩,
        (r.unloadSharedLibrary s.log a.lib).2.2⟩ ↔
      ∀ h, a.lib.libPointer = some h → r.unload s.log h = .ok () ∨ r.resetsOnFailure = false := by
  cases hp : a.lib.libPointer with
  | none =>
    refine iff_of_true ?_ (by simp)
    rw [unloadSharedLibrary_of_none hp]
    exact hI.of_countP (countP_owns_set ha fun _ => rfl)
  | some h =>
    simp only [Option.some_inj, forall_eq']
    cases hu : r.unload s.log h with
    | ok u =>
      rw [unloadSharedLibrary_of_ok hp hu]
      exact iff_of_true (hI.release ha hp fun h => owns_zero h true) (.inl rfl)
    | error e =>
      rw [unloadSharedLibrary_of_error hp hu]
      cases hr : r.resetsOnFailure with
      -- the handle is forgotten, and nothing unloads it any more
      | true =>
        refine iff_of_false ?_ (by simp)
        apply hI.not_of_lost ha hp (owns_zero h true)
        exact unreleased_append_unloadFailed.mpr (hI.unreleased ha hp)
      -- the handle is kept, to be unloaded later
      | false =>
        refine iff_of_true ?_ (.inr rfl)
        exact hI.append ha hp (countP_owns_set ha fun _ => rfl) rfl (by simp) (by simp)

/-- The destructor loses a handle when unloading fails. -/
theorem owners_destroy_iff (hI : OneOwner s) (ha : s.objects.live? i = some a) :
    OneOwner ⟨s.objects.destroy i a, destructor r s.log a⟩ ↔
      ∀ h, a.lib.libPointer = some h → r.unload s.log h = .ok () := by
  cases hp : a.lib.libPointer with
  | none =>
    refine iff_of_true ?_ (by simp)
    have hd : destructor r s.log a = s.log := by simp [destructor, Rcutils.isLoaded, hp]
    rw [hd]
    apply hI.of_countP
    apply countP_owns_set ha
    intro h
    rw [owns_dead, owns_of_none hp]
  | some h =>
    have hd : destructor r s.log a = (r.unloadSharedLibrary s.log a.lib).2.2 := by
      simp [destructor, Rcutils.isLoaded, hp]
    simp only [Option.some_inj, forall_eq']
    rw [hd]
    cases hu : r.unload s.log h with
    | ok u =>
      rw [unloadSharedLibrary_of_ok hp hu]
      exact iff_of_true (hI.release ha hp fun h => owns_dead h a) rfl
    -- the object is gone and its handle with it
    | error e =>
      rw [unloadSharedLibrary_of_error hp hu]
      refine iff_of_false ?_ (by simp)
      apply hI.not_of_lost ha hp (owns_dead h a)
      exact unreleased_append_unloadFailed.mpr (hI.unreleased ha hp)

/-- Looking up a symbol keeps the owners. -/
theorem owners_getSymbol (hI : OneOwner s) (ha : s.objects.live? i = some a)
    (symbolName : StdString) :
    OneOwner ⟨s.objects, (getSymbol r s.log a symbolName).2⟩ := by
  rw [getSymbol_snd]
  cases hp : a.lib.libPointer with
  | none =>
    rw [Option.map_none, Option.toList_none, List.append_nil]
    exact hI
  | some h => exact hI.append ha hp (fun _ => rfl) rfl (by simp) (by simp)

/-- **An operation keeps one owner for each handle exactly when** it copies no library and unloads
for good. -/
theorem owners_step_iff {op : Op} {s s' : State Handle} (hI : OneOwner s)
    (hs : step r op s = some s') : OneOwner s' ↔ Owned r op s := by
  cases op with
  | construct libraryPath =>
    obtain rfl := Option.some_inj.mp hs
    refine iff_of_true ?_ trivial
    rcases construct_cases r s.log libraryPath with ⟨lib, hload, hc⟩ | ⟨e, hc⟩
    · simp only [hc, addConstructed]
      exact hI.construct (r.load_fresh hload)
    · simp only [hc, addConstructed]
      exact hI
  | copyConstruct i =>
    obtain ⟨other, hother, rfl⟩ := Option.map_eq_some_iff.mp hs
    rw [owners_copyConstruct_iff hI hother]
    simp [Owned, hother]
  | copyAssign i j =>
    obtain ⟨self, hself, hs⟩ := Option.bind_eq_some_iff.mp hs
    obtain ⟨other, hother, rfl⟩ := Option.map_eq_some_iff.mp hs
    rw [owners_copyAssign_iff hI hself]
    simp [Owned, hself, hother]
  | unloadLibrary i =>
    obtain ⟨self, hself, rfl⟩ := Option.map_eq_some_iff.mp hs
    rw [unloadLibrary_eq, owners_unload_iff hI hself]
    simp [Owned, hself]
  | getSymbol i symbolName =>
    obtain ⟨self, hself, rfl⟩ := Option.map_eq_some_iff.mp hs
    exact iff_of_true (owners_getSymbol hI hself symbolName) trivial
  | destroy i =>
    obtain ⟨self, hself, rfl⟩ := Option.map_eq_some_iff.mp hs
    rw [owners_destroy_iff hI hself]
    simp [Owned, hself]

/-! ### Runs -/

omit [DecidableEq Handle] in
/-- Nothing follows a release, so there is at most one. -/
theorem NoUseAfterRelease.count_le_one [DecidableEq Handle] {log : List (LibraryEvent Handle)}
    (h : NoUseAfterRelease log) (lib : Handle) : log.count (.unloaded lib) ≤ 1 := by
  induction log with
  | nil => simp
  | cons e log ih =>
    obtain ⟨hhead, htail⟩ := List.pairwise_cons.mp h
    rw [List.count_cons]
    by_cases he : e = .unloaded lib
    · have hnot : .unloaded lib ∉ log := fun hmem => hhead _ hmem he
      simp [he, List.count_eq_zero_of_not_mem hnot]
    · simpa [he] using ih htail

/-- With one owner for each handle, every handle is released once. -/
theorem OneOwner.releasedOnce (hI : OneOwner s) : ReleasedOnce s := by
  refine ⟨hI.noUse, ?_⟩
  intro hend h hloaded
  -- no object lives, so no handle is left
  have hzero : s.objects.countP (Owns h) = 0 := by
    rw [List.countP_eq_zero]
    intro slot hslot
    simp [Owns, hend slot hslot]
  have hun : ¬ Unreleased h s.log := by
    intro hun
    rw [hI.countP_owns, if_pos hun] at hzero
    cases hzero
  have hmem : .unloaded h ∈ s.log := by
    by_contra hnot
    exact hun ⟨hloaded, hnot⟩
  have hle := hI.noUse.count_le_one h
  have hpos := List.count_pos_iff.mpr hmem
  omega

theorem oneOwner_init : OneOwner (init : State Handle) :=
  ⟨fun _ => rfl, List.Pairwise.nil⟩

/-- Along a run, each handle has one owner exactly when all operations are `Owned`. -/
theorem everyState_oneOwner_iff (r : Rcutils Handle) (ops : List Op) :
    Machine.EveryState (step r) OneOwner ops init ↔ Machine.EveryStep (step r) (Owned r) ops init :=
  Machine.everyState_iff_everyStep (fun _ _ _ => owners_step_iff) oneOwner_init

/-- **Every handle is released exactly once, and not used afterwards**, in every run that copies
no library and in which unloading does not fail for good. -/
theorem everyState_releasedOnce (r : Rcutils Handle) {ops : List Op}
    (h : Machine.EveryStep (step r) (Owned r) ops init) :
    Machine.EveryState (step r) ReleasedOnce ops init :=
  ((everyState_oneOwner_iff r ops).mpr h).imp fun _ => OneOwner.releasedOnce

/-- Handles that are counted up, and libraries that can be unloaded once. -/
def countingRcutils : Rcutils ℕ where
  load log _ :=
    if ∀ e ∈ log, e.handle ≠ log.length then .ok log.length else .error .badAlloc
  unload log h := if .unloaded h ∈ log then .error "dlclose error" else .ok ()
  resetsOnFailure := true
  symbol _ _ _ := .error "symbol not found"
  notLoaded := "lib argument is null"
  load_fresh := by
    intro log path lib h
    split_ifs at h with hfresh
    obtain rfl := Except.ok.inj h
    exact hfresh

/-- A library is loaded, unloaded and unloaded again, which throws. -/
theorem everyState_releasedOnce_unload :
    Machine.EveryState (step countingRcutils) ReleasedOnce
      [.construct "a".toList, .unloadLibrary 0, .unloadLibrary 0, .destroy 0] init := by
  apply everyState_releasedOnce
  refine .cons rfl trivial (.cons rfl ?_ (.cons rfl ?_ (.cons rfl ?_ trivial)))
  · intro self hself h hp
    obtain rfl := Option.some_inj.mp hself
    obtain rfl := Option.some_inj.mp hp
    exact .inl rfl
  · intro self hself h hp
    obtain rfl := Option.some_inj.mp hself
    cases hp
  · intro self hself h hp
    obtain rfl := Option.some_inj.mp hself
    cases hp

/-- A library is unloaded by an object and by its copy. -/
theorem not_everyState_releasedOnce_copy :
    ¬ Machine.EveryState (step countingRcutils) ReleasedOnce
      [.construct "a".toList, .copyConstruct 0, .destroy 1, .destroy 0] init := by
  intro h
  have hlast := ((((h.2 _ rfl).2 _ rfl).2 _ rfl).2 _ rfl).1
  revert hlast
  decide

end SharedLibrary

end RcppUtils
