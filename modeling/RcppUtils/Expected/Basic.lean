import RcppUtils.Program.Exceptional
import RcppUtils.Program.Objects

/-!
# The class `tl::expected`

An object has room for a value or an error, and a flag that tells which of them lives there. Its
functions construct and destroy the two by hand. Any call of a special member function may throw,
unless its type promises that it does not; what the functions do depends on these promises.

## Main definitions

* `ClassType`, `Types`: the types of values and errors, and the calls that throw
* `Expected`, `Memory`: an object, and the objects of a program
* `UnionMember`: the two members of the union, with what is done to each
* `construct`, `assignCommon`, `assign`, `emplace`, `swap`: the functions of the class
* `Op`, `exec`, `Permitted`: what a program does with objects
* `State`, `step`: the program itself, which goes on until it is terminated or loses its meaning
-/

namespace RcppUtils

namespace Tl

open Exceptional

variable {α ε : Type}

/-- Whether a function takes its argument as an lvalue or as an rvalue. -/
inductive Ref
  | copy
  | move
  deriving DecidableEq

/-- A class type: which of its special member functions do not throw, the value that is left in an
object that was moved from, and the one that an assignment leaves when it throws. -/
structure ClassType (α : Type) where
  nothrowConstructible : Ref → Bool
  nothrowAssignable : Ref → Bool
  movedFrom : α → α
  torn : α → α → α

/-- The types `T` and `E`, and whether the `k`-th call of a special member function throws, if it
may. -/
structure Types (α ε : Type) where
  T : ClassType α
  E : ClassType ε
  fails : ℕ → Bool

/-- An object of the class: the member of the union that lives, if any, and `m_has_val`. -/
structure Expected (α ε : Type) where
  member : Option (Except ε α)
  hasVal : Bool

/-- A program's objects, the calls of special member functions so far, and how many values and
errors were constructed and destroyed. -/
structure Memory (α ε : Type) where
  objects : Objects (Expected α ε)
  calls : ℕ
  constructed : ℕ
  destroyed : ℕ

namespace Memory

variable (s : Memory α ε)

/-- The object `i`, if it lives. -/
def get? (i : ℕ) : Option (Expected α ε) := s.objects.live? i

/-- How many objects live. -/
def living : ℕ := s.objects.countP Slot.alive

def put (i : ℕ) (x : Expected α ε) : Memory α ε := { s with objects := s.objects.assign i x }

def allocate (x : Expected α ε) : Memory α ε := { s with objects := s.objects.construct x }

def deallocate (i : ℕ) (x : Expected α ε) : Memory α ε :=
  { s with objects := s.objects.destroy i x }

def called : Memory α ε := { s with calls := s.calls + 1 }

def born : Memory α ε := { s with constructed := s.constructed + 1 }

def died : Memory α ε := { s with destroyed := s.destroyed + 1 }

end Memory

/-- The computations of a program with such objects. -/
abbrev Prog (α ε : Type) := Exceptional (Memory α ε)

/-! ## Members of the union -/

/-- A member of the union, of type `τ`. -/
structure UnionMember (α ε τ : Type) where
  type : ClassType τ
  inject : τ → Except ε α
  project : Except ε α → Option τ

/-- `m_val`. -/
def Types.val (X : Types α ε) : UnionMember α ε α where
  type := X.T
  inject := .ok
  project
    | .ok v => some v
    | .error _ => none

/-- `m_unexpect`. -/
def Types.err (X : Types α ε) : UnionMember α ε ε where
  type := X.E
  inject := .error
  project
    | .ok _ => none
    | .error e => some e

section Primitives

/-- The object `i`. -/
def object (i : ℕ) : Prog α ε (Expected α ε) := fun s => ofOption (s.get? i) s

/-- A new object, with its index. -/
def newObject (x : Expected α ε) : Prog α ε ℕ := fun s =>
  (.returns s.objects.length, s.allocate x)

/-- `m_has_val` of the object `i`. -/
def hasVal (i : ℕ) : Prog α ε Bool := do
  return (← object i).hasVal

def setHasVal (i : ℕ) (b : Bool) : Prog α ε Unit := do
  let x ← object i
  update (·.put i { x with hasVal := b })

variable {τ : Type} (X : Types α ε) (u : UnionMember α ε τ)

/-- The member of the object `i`; it has no meaning when the member does not live. -/
def read (i : ℕ) : Prog α ε τ := do
  ofOption ((← object i).member.bind u.project)

def write (i : ℕ) (v : τ) : Prog α ε Unit := do
  let x ← object i
  update (·.put i { x with member := some (u.inject v) })

/-- A call of a special member function. -/
def special (nothrow : Bool) : Prog α ε Unit := fun s =>
  if !nothrow && X.fails s.calls then (.throws, s.called) else (.returns (), s.called)

/-- A new object from an argument. -/
def init (nothrow : Bool) (v : τ) : Prog α ε τ := do
  special X nothrow
  update Memory.born
  return v

/-- A new object from the member of the object `j`. -/
def initFrom (ref : Ref) (j : ℕ) : Prog α ε τ := do
  let v ← init X (u.type.nothrowConstructible ref) (← read u j)
  if ref = .move then write u j (u.type.movedFrom v)
  return v

/-- A placement new: the member is not destroyed before. -/
def place (i : ℕ) (new : Prog α ε τ) : Prog α ε Unit := do
  write u i (← new)

/-- The call of the destructor of a member. -/
def destroyMember (i : ℕ) : Prog α ε Unit := do
  let _ ← read u i
  let x ← object i
  update fun s => (s.put i { x with member := none }).died

/-- An assignment of an argument to a member. -/
def assignTo (i : ℕ) (nothrow : Bool) (v : τ) : Prog α ε Unit := do
  let old ← read u i
  tryCatch (special X nothrow) do
    write u i (u.type.torn old v)
    throw
  write u i v

/-- An assignment of the member of the object `j` to that of the object `i`. -/
def assignFrom (ref : Ref) (i j : ℕ) : Prog α ε Unit := do
  let v ← read u j
  assignTo X u i (u.type.nothrowAssignable ref) v
  if ref = .move then write u j (u.type.movedFrom v)

/-- A local variable, which is destroyed on the way out. -/
def withLocal (new : Prog α ε τ) (body : τ → Prog α ε Unit) : Prog α ε Unit := do
  let v ← new
  onExit (body v) Memory.died

/-- `std::swap` of the members of two objects. -/
def stdSwap (i j : ℕ) : Prog α ε Unit :=
  withLocal (initFrom X u .move i) fun tmp => do
    assignFrom X u .move i j
    assignTo X u j (u.type.nothrowAssignable .move) tmp

end Primitives

/-! ## The functions of the class -/

section Functions

variable (X : Types α ε)

/-- `construct(args...)` and `construct_with(rhs)`. -/
def construct (i : ℕ) (new : Prog α ε α) : Prog α ε Unit :=
  noexcept do
    place X.val i new
    setHasVal i true

/-- `construct_error(args...)`. -/
def constructError (i : ℕ) (new : Prog α ε ε) : Prog α ε Unit :=
  noexcept do
    place X.err i new
    setHasVal i false

/-- `assign_common(rhs)`. -/
def assignCommon (ref : Ref) (i j : ℕ) : Prog α ε Unit := do
  if ← hasVal i then
    if ← hasVal j then assignFrom X X.val ref i j
    else
      destroyMember X.val i
      constructError X i (initFrom X X.err ref j)
  else if !(← hasVal j) then assignFrom X X.err ref i j

/-- The overload of `assign(rhs)` that constructs the value in place. -/
def assignInPlace (ref : Ref) (i j : ℕ) : Prog α ε Unit :=
  noexcept do
    if !(← hasVal i) && (← hasVal j) then
      destroyMember X.err i
      construct X i (initFrom X X.val ref j)
    else assignCommon X ref i j

/-- The overload that makes a copy first. -/
def assignCopyFirst (i j : ℕ) : Prog α ε Unit :=
  noexcept do
    if !(← hasVal i) && (← hasVal j) then
      withLocal (initFrom X X.val .copy j) fun tmp => do
        destroyMember X.err i
        construct X i (init X (X.T.nothrowConstructible .move) tmp)
    else assignCommon X .copy i j

/-- The statements that keep the error of the object `i` while `new` is tried, and put it back. -/
def tryInPlace (i : ℕ) (new : Prog α ε Unit) : Prog α ε Unit :=
  withLocal (initFrom X X.err .move i) fun tmp => do
    destroyMember X.err i
    tryCatch new do
      assignTo X X.err i (X.E.nothrowAssignable .move) tmp
      throw

/-- The overloads that keep the error. -/
def assignKeepError (ref : Ref) (i j : ℕ) : Prog α ε Unit := do
  if !(← hasVal i) && (← hasVal j) then
    tryInPlace X i (construct X i (initFrom X X.val ref j))
  else assignCommon X ref i j

/-- The copy and the move assignment, `assign(rhs)`. -/
def assign : Ref → ℕ → ℕ → Prog α ε Unit
  | .copy, i, j =>
    if X.T.nothrowConstructible .copy then assignInPlace X .copy i j
    else if X.T.nothrowConstructible .move then assignCopyFirst X i j
    else assignKeepError X .copy i j
  | .move, i, j =>
    if X.T.nothrowConstructible .move then assignInPlace X .move i j
    else assignKeepError X .move i j

/-- The placement new of a value in the functions of `expected` itself. -/
def newValue (i : ℕ) (nothrow : Bool) (v : α) : Prog α ε Unit := do
  place X.val i (init X nothrow v)
  setHasVal i true

/-- What `operator=` and `emplace` do with an object that has an error. -/
def replaceError (i : ℕ) (nothrow : Bool) (v : α) : Prog α ε Unit :=
  if nothrow then do
    destroyMember X.err i
    newValue X i true v
  else tryInPlace X i (newValue X i false v)

/-- `operator=(U && v)`; `nothrow` is `is_nothrow_constructible<T, U &&>`. -/
def assignValue (i : ℕ) (nothrow : Bool) (v : α) : Prog α ε Unit := do
  if ← hasVal i then assignTo X X.val i false v
  else replaceError X i nothrow v

/-- `operator=(const unexpected<G> &)`, and `operator=(unexpected<G> &&)`, which is `noexcept`. -/
def assignUnexpected (ref : Ref) (i : ℕ) (e : ε) : Prog α ε Unit :=
  (if ref = .move then noexcept else id) do
    if !(← hasVal i) then assignTo X X.err i (X.E.nothrowAssignable ref) e
    else
      destroyMember X.val i
      place X.err i (init X true e)
      setHasVal i false

/-- `emplace(args...)`, and `emplace(il, args...)`. -/
def emplace (i : ℕ) (nothrow : Bool) (v : α) : Prog α ε Unit := do
  if ← hasVal i then
    withLocal (init X nothrow v) fun t => assignTo X X.val i (X.T.nothrowAssignable .move) t
  else replaceError X i nothrow v

/-- `swap_where_only_one_has_value` of the object `i` with a value and the object `j` without. -/
def swapOnlyOne (i j : ℕ) : Prog α ε Unit := do
  let finish : Prog α ε Unit := do
    setHasVal i false
    setHasVal j true
  if X.T.nothrowConstructible .move then
    -- the value is kept while the error is moved
    withLocal (initFrom X X.val .move i) fun temp => do
      destroyMember X.val i
      let body : Prog α ε Unit := do
        place X.err i (initFrom X X.err .move j)
        destroyMember X.err j
        place X.val j (init X true temp)
        finish
      if X.E.nothrowConstructible .move then body
      else tryCatch body do
        assignTo X X.val i (X.T.nothrowAssignable .move) temp
        throw
  else
    -- the error is kept while the value is copied
    withLocal (initFrom X X.err .move j) fun temp => do
      destroyMember X.err j
      tryCatch (do
          place X.val j (initFrom X X.val .copy i)
          destroyMember X.val i
          place X.err i (init X true temp)
          finish) do
        assignTo X X.err j (X.E.nothrowAssignable .move) temp
        throw

/-- `swap(rhs)`. -/
def swap (i j : ℕ) : Prog α ε Unit := do
  match ← hasVal i, ← hasVal j with
  | true, true => stdSwap X X.val i j
  | false, true => swapOnlyOne X j i
  | true, false => swapOnlyOne X i j
  | false, false => stdSwap X X.err i j

/-- A new object without a member, for a constructor that goes on. -/
def noInit : Prog α ε ℕ := newObject ⟨none, false⟩

/-- The copy and the move constructor. -/
def constructFrom (ref : Ref) (j : ℕ) : Prog α ε Unit := do
  let i ← noInit
  if ← hasVal j then construct X i (initFrom X X.val ref j)
  else constructError X i (initFrom X X.err ref j)

/-- The default constructor, and those for a value: `v` is the value of `T{}` or of `T(args...)`. -/
def constructInPlace (v : α) : Prog α ε ℕ := do
  newObject ⟨some (.ok (← init X false v)), true⟩

/-- The constructors for an error. -/
def constructUnexpect (e : ε) : Prog α ε ℕ := do
  newObject ⟨some (.error (← init X false e)), false⟩

/-- The constructors from another type `expected<U, G>`, which holds what `c` is made from. The base
class has its default constructor called, with the value `v` of `T{}`. -/
def constructConverting (v : α) (c : Except ε α) : Prog α ε Unit := do
  let i ← constructInPlace X v
  match c with
  | .ok v' => construct X i (init X false v')
  | .error e => constructError X i (init X false e)

/-- The destructor. -/
def destructor (i : ℕ) : Prog α ε Unit := do
  if ← hasVal i then destroyMember X.val i else destroyMember X.err i
  let x ← object i
  update (·.deallocate i x)

/-- `value()`. -/
def value (i : ℕ) : Prog α ε α := do
  if !(← hasVal i) then
    let _ ← read X.err i
    throw
  read X.val i

/-- `operator*()`. -/
def deref (i : ℕ) : Prog α ε α := read X.val i

/-- `error()`. -/
def error (i : ℕ) : Prog α ε ε := read X.err i

end Functions

/-! ## Programs -/

/-- What a program does with objects: it constructs one, assigns to one, swaps two, reads one, or
destroys one. -/
inductive Op (α ε : Type)
  | inPlace (v : α)
  | unexpect (e : ε)
  | construct (ref : Ref) (j : ℕ)
  | convert (v : α) (c : Except ε α)
  | assign (ref : Ref) (i j : ℕ)
  | assignValue (i : ℕ) (nothrow : Bool) (v : α)
  | assignUnexpected (ref : Ref) (i : ℕ) (e : ε)
  | emplace (i : ℕ) (nothrow : Bool) (v : α)
  | swap (i j : ℕ)
  | value (i : ℕ)
  | deref (i : ℕ)
  | error (i : ℕ)
  | destroy (i : ℕ)

variable (X : Types α ε)

/-- The computation of an operation; what is read is its result. -/
def exec : Op α ε → Prog α ε (Option (Except ε α))
  | .inPlace v => do
    let _ ← constructInPlace X v
    return none
  | .unexpect e => do
    let _ ← constructUnexpect X e
    return none
  | .construct ref j => do
    constructFrom X ref j
    return none
  | .convert v c => do
    constructConverting X v c
    return none
  | .assign ref i j => do
    Tl.assign X ref i j
    return none
  | .assignValue i nothrow v => do
    Tl.assignValue X i nothrow v
    return none
  | .assignUnexpected ref i e => do
    Tl.assignUnexpected X ref i e
    return none
  | .emplace i nothrow v => do
    Tl.emplace X i nothrow v
    return none
  | .swap i j => do
    Tl.swap X i j
    return none
  | .value i => do
    return some (.ok (← Tl.value X i))
  | .deref i => do
    return some (.ok (← Tl.deref X i))
  | .error i => do
    return some (.error (← Tl.error X i))
  | .destroy i => do
    destructor X i
    return none

/-- The object `i` lives. -/
def Lives (s : Memory α ε) (i : ℕ) : Prop := (s.get? i).isSome = true

instance (s : Memory α ε) : DecidablePred (Lives s) := fun _ =>
  inferInstanceAs (Decidable (_ = true))

/-- The objects of the operation live, and its overload takes part in overload resolution. -/
def Permitted (lives : ℕ → Prop) : Op α ε → Prop
  | .inPlace _ | .unexpect _ | .convert _ _ => True
  | .construct _ j => lives j
  | .assign _ i j => lives i ∧ lives j
  | .assignValue i _ _ => lives i ∧ X.E.nothrowConstructible .move
  | .assignUnexpected ref i _ => lives i ∧ X.E.nothrowConstructible ref
  | .swap i j =>
    lives i ∧ lives j ∧ (X.T.nothrowConstructible .move ∨ X.E.nothrowConstructible .move)
  | .emplace i _ _ | .value i | .deref i | .error i | .destroy i => lives i

instance (lives : ℕ → Prop) [DecidablePred lives] : DecidablePred (Permitted X lives)
  | .inPlace _ | .unexpect _ | .convert _ _ => inferInstanceAs (Decidable True)
  | .construct _ j => inferInstanceAs (Decidable (lives j))
  | .emplace i _ _ | .value i | .deref i | .error i | .destroy i =>
    inferInstanceAs (Decidable (lives i))
  | .assign _ _ _ | .assignValue _ _ _ | .assignUnexpected _ _ _ =>
    inferInstanceAs (Decidable (_ ∧ _))
  | .swap _ _ => inferInstanceAs (Decidable (_ ∧ _ ∧ (_ ∨ _)))

/-- A program: its memory, how the last operation ended, and how many conversions returned. -/
structure State (α ε : Type) where
  memory : Memory α ε
  last : Completion (Option (Except ε α))
  converted : ℕ

/-- The program before its first operation. -/
def State.init : State α ε where
  memory := ⟨[], 0, 0, 0⟩
  last := .returns none
  converted := 0

/-- How many conversions an operation is that ends so. -/
def Op.conversions : Op α ε → Completion (Option (Except ε α)) → ℕ
  | .convert _ _, .returns _ => 1
  | _, _ => 0

/-- An operation, unless the program has ended. -/
def step (op : Op α ε) (s : State α ε) : Option (State α ε) :=
  if s.last.GoesOn ∧ Permitted X (Lives s.memory) op then
    let (c, memory) := exec X op s.memory
    some ⟨memory, c, s.converted + op.conversions c⟩
  else none

end Tl

end RcppUtils
