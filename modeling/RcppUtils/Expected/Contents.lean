import RcppUtils.Expected.Lifetime

/-!
# What the objects of `tl::expected` are for

An object is there to hold a value or an error. Seen so, a memory is a list of contents: an
assignment takes a content over, a swap exchanges two of them, and an object that was moved from
keeps its member in the state that the move has left. Where no call throws, a program with objects
is a program with contents.

## Main definitions

* `Contents`, `Contents.exec`, `Contents.step`: a program with contents
* `State.contents`: a program with objects, seen so

## Main results

* `run_contents`: the refinement
-/

namespace RcppUtils

namespace Tl

variable {α ε : Type}

/-- The contents of all objects; there is none where an object was destroyed. -/
abbrev Contents (α ε : Type) := List (Option (Except ε α))

/-- The content that a move leaves. -/
def Types.movedFrom (X : Types α ε) : Except ε α → Except ε α
  | .ok v => .ok (X.T.movedFrom v)
  | .error e => .error (X.E.movedFrom e)

@[simp] theorem Types.movedFrom_ok (X : Types α ε) (v : α) :
    X.movedFrom (.ok v) = .ok (X.T.movedFrom v) :=
  rfl

@[simp] theorem Types.movedFrom_error (X : Types α ε) (e : ε) :
    X.movedFrom (.error e) = .error (X.E.movedFrom e) :=
  rfl

namespace Contents

variable (X : Types α ε) (cs : Contents α ε)

/-- The content of the object `i`. -/
def get? (i : ℕ) : Option (Except ε α) := cs[i]?.join

/-- The object `j` is copied or moved from. -/
def leave (ref : Ref) (j : ℕ) (c : Except ε α) : Contents α ε :=
  match ref with
  | .copy => cs
  | .move => cs.set j (some (X.movedFrom c))

@[simp] theorem leave_copy (j : ℕ) (c : Except ε α) : leave X cs .copy j c = cs := rfl

@[simp] theorem leave_move (j : ℕ) (c : Except ε α) :
    leave X cs .move j c = cs.set j (some (X.movedFrom c)) :=
  rfl

/-- An operation on contents. -/
def exec (op : Op α ε) : Completion (Option (Except ε α)) × Contents α ε :=
  match op with
  | .inPlace v => (.returns none, cs ++ [some (.ok v)])
  | .unexpect e => (.returns none, cs ++ [some (.error e)])
  | .convert _ c => (.returns none, cs ++ [some c])
  | .construct ref j =>
    match cs.get? j with
    | some c => (.returns none, leave X cs ref j c ++ [some c])
    | none => (.undefined, cs)
  | .assign ref i j =>
    match cs.get? j with
    | some c => (.returns none, leave X (cs.set i (some c)) ref j c)
    | none => (.undefined, cs)
  | .assignValue i _ v | .emplace i _ v => (.returns none, cs.set i (some (.ok v)))
  | .assignUnexpected _ i e => (.returns none, cs.set i (some (.error e)))
  | .swap i j => (.returns none, (cs.set i (cs.get? j)).set j (cs.get? i))
  | .value i =>
    match cs.get? i with
    | some (.ok v) => (.returns (some (.ok v)), cs)
    | _ => (.throws, cs)
  | .deref i =>
    match cs.get? i with
    | some (.ok v) => (.returns (some (.ok v)), cs)
    | _ => (.undefined, cs)
  | .error i =>
    match cs.get? i with
    | some (.error e) => (.returns (some (.error e)), cs)
    | _ => (.undefined, cs)
  | .destroy i => (.returns none, cs.set i none)

/-- The object `i` has a content. -/
def Lives (i : ℕ) : Prop := (cs.get? i).isSome = true

instance : DecidablePred cs.Lives := fun _ => inferInstanceAs (Decidable (_ = true))

end Contents

/-- A program with contents, and how its last operation ended. -/
structure ContentState (α ε : Type) where
  contents : Contents α ε
  last : Completion (Option (Except ε α))

namespace ContentState

/-- The program before its first operation. -/
def init : ContentState α ε := ⟨[], .returns none⟩

/-- An operation, unless the program has ended. -/
def step (X : Types α ε) (op : Op α ε) (s : ContentState α ε) : Option (ContentState α ε) :=
  if s.last.GoesOn ∧ Permitted X s.contents.Lives op then
    let (c, contents) := s.contents.exec X op
    some ⟨contents, c⟩
  else none

end ContentState

/-! ## The contents of a memory -/

/-- The contents of the objects. -/
def Memory.contents (s : Memory α ε) : Contents α ε :=
  s.objects.map fun slot => if slot.alive then slot.value.member else none

/-- A program with objects, seen as one with contents. -/
def State.view (s : State α ε) : ContentState α ε := ⟨s.memory.contents, s.last⟩

/-- What a computation comes to, seen so. -/
def seen {β : Type} (r : Completion β × Memory α ε) : Completion β × Contents α ε :=
  (r.1, r.2.contents)

@[simp] theorem seen_mk {β : Type} (c : Completion β) (s : Memory α ε) :
    seen (c, s) = (c, s.contents) :=
  rfl

@[simp] theorem seen_ite {β : Type} (p : Prop) [Decidable p] (r r' : Completion β × Memory α ε) :
    seen (if p then r else r') = if p then seen r else seen r' :=
  apply_ite seen p r r'

namespace Memory

variable (s : Memory α ε) (i : ℕ) (x : Expected α ε)

@[simp] theorem contents_called : s.called.contents = s.contents := rfl

@[simp] theorem contents_born : s.born.contents = s.contents := rfl

@[simp] theorem contents_died : s.died.contents = s.contents := rfl

@[simp] theorem contents_put : (s.put i x).contents = s.contents.set i x.member :=
  List.map_set

@[simp] theorem contents_allocate : (s.allocate x).contents = s.contents ++ [x.member] :=
  List.map_append

@[simp] theorem contents_deallocate : (s.deallocate i x).contents = s.contents.set i none :=
  List.map_set

theorem contents_get? : s.contents.get? i = (s.get? i).bind Expected.member := by
  rw [Contents.get?, contents, get?, Objects.live?, List.getElem?_map]
  cases s.objects[i]? with
  | none => rfl
  | some slot =>
    obtain ⟨y, alive⟩ := slot
    cases alive <;> rfl

end Memory

namespace Sound

variable {s : Memory α ε} {n i : ℕ}

theorem lives_iff (hs : Sound s n) : s.contents.Lives i ↔ Lives s i := by
  rw [Contents.Lives, Lives, Memory.contents_get?]
  cases h : s.get? i with
  | none => rfl
  | some x =>
    obtain ⟨c, rfl⟩ := hs.held i x h
    rfl

end Sound

/-! ## The refinement -/

section Refinement

attribute [-simp] special_apply bind_pure_comp bind_assoc Option.bind_eq_bind List.bind_eq_flatMap

variable (X : Types α ε) {s : Memory α ε} {n i j : ℕ}

section Results

variable {β γ : Type} {r : Completion β × Memory α ε} {b : β} {cs : Contents α ε}

/-- What is done with the result changes nothing. -/
theorem seen_next (h : seen r = (.returns b, cs)) (f : β → γ) :
    seen (Exceptional.next r fun b => pure (f b)) = (.returns (f b), cs) := by
  obtain ⟨c, t⟩ := r
  obtain ⟨rfl, rfl⟩ := Prod.mk.inj h
  rfl

theorem seen_promised (h : seen r = (.returns b, cs)) :
    seen (Exceptional.promised r) = (.returns b, cs) := by
  obtain ⟨c, t⟩ := r
  obtain ⟨rfl, rfl⟩ := Prod.mk.inj h
  rfl

end Results

variable {X} (hX : ∀ k, X.fails k = false)

include hX

/-- No call throws. -/
theorem special_of_not_fails (nothrow : Bool) (s : Memory α ε) :
    special X nothrow s = (.returns (), s.called) := by
  apply special_of_not_throws
  rintro ⟨-, hfails⟩
  simp [hX] at hfails

/-! ### The functions of the class -/

/-- The new object takes the content over. -/
theorem seen_constructFrom (ref : Ref) {c : Except ε α} (hj : s.get? j = some (.ofContent c)) :
    seen (constructFrom X ref j s) =
      (.returns (), Contents.leave X s.contents ref j c ++ [some c]) := by
  have hcall := special_of_not_fails hX
  have hne : j ≠ s.objects.length := Memory.ne_length (by simp [hj])
  cases c with
  | ok v => cases ref <;> simp [constructFrom, construct, hcall, hj, hne]
  | error e => cases ref <;> simp [constructFrom, constructError, hcall, hj, hne]

theorem seen_constructConverting (v : α) (c : Except ε α) :
    seen (constructConverting X v c s) = (.returns (), s.contents ++ [some c]) := by
  have hcall := special_of_not_fails hX
  cases c with
  | ok v' => simp [constructConverting, constructInPlace, construct, hcall]
  | error e => simp [constructConverting, constructInPlace, constructError, hcall]

theorem seen_assignCommon (ref : Ref) {c d : Except ε α} (hi : s.get? i = some (.ofContent c))
    (hj : s.get? j = some (.ofContent d)) (h : c.isOk = true ∨ d.isOk = false) :
    seen (assignCommon X ref i j s) =
      (.returns (), Contents.leave X (s.contents.set i (some d)) ref j d) := by
  have hcall := special_of_not_fails hX
  cases c with
  | ok v =>
    cases d with
    | ok w => cases ref <;> simp [assignCommon, hcall, hi, hj]
    | error e =>
      have hne : i ≠ j := ne_of_value_error hi hj
      cases ref with
      | copy => simp [assignCommon, constructError, hcall, hi, hj, hne.symm]
      | move =>
        simp [assignCommon, constructError, hcall, hi, hj, hne, hne.symm]
        exact List.set_comm _ _ hne.symm
  | error e =>
    cases d with
    | ok w => rcases h with h | h <;> cases h
    | error e' => cases ref <;> simp [assignCommon, hcall, hi, hj]

/-- Each of the overloads lets a value take the place of an error. -/
theorem seen_assign_of_error_value (ref : Ref) {e : ε} {v : α}
    (hi : s.get? i = some (.ofContent (.error e))) (hj : s.get? j = some (.ofContent (.ok v))) :
    seen (assign X ref i j s) =
      (.returns (), Contents.leave X (s.contents.set i (some (.ok v))) ref j (.ok v)) := by
  have hcall := special_of_not_fails hX
  have hne : i ≠ j := (ne_of_value_error hj hi).symm
  have hplace : seen (assignInPlace X ref i j s) =
      (.returns (), Contents.leave X (s.contents.set i (some (.ok v))) ref j (.ok v)) := by
    cases ref with
    | copy => simp [assignInPlace, construct, hcall, hi, hj, hne.symm]
    | move =>
      simp [assignInPlace, construct, hcall, hi, hj, hne, hne.symm]
      exact List.set_comm _ _ hne.symm
  have hfirst : seen (assignCopyFirst X i j s) =
      (.returns (), s.contents.set i (some (.ok v))) := by
    simp [assignCopyFirst, construct, hcall, hi, hj]
  have hkeep : seen (assignKeepError X ref i j s) =
      (.returns (), Contents.leave X (s.contents.set i (some (.ok v))) ref j (.ok v)) := by
    cases ref with
    | copy => simp [assignKeepError, tryInPlace, construct, hcall, hi, hj, hne.symm]
    | move =>
      simp [assignKeepError, tryInPlace, construct, hcall, hi, hj, hne, hne.symm]
      exact List.set_comm _ _ hne.symm
  cases ref with
  | copy => simp [assign, hplace, hfirst, hkeep]
  | move => simp [assign, hplace, hkeep]

/-- An assignment takes a content over. -/
theorem seen_assign (ref : Ref) {c d : Except ε α} (hi : s.get? i = some (.ofContent c))
    (hj : s.get? j = some (.ofContent d)) :
    seen (assign X ref i j s) =
      (.returns (), Contents.leave X (s.contents.set i (some d)) ref j d) := by
  -- but for a value that takes the place of an error, the assignment is the common one
  have hcommon : c.isOk = true ∨ d.isOk = false → seen (assign X ref i j s) =
      (.returns (), Contents.leave X (s.contents.set i (some d)) ref j d) := by
    intro h
    have hcommon := seen_assignCommon hX ref hi hj h
    rw [assign_eq_assignCommon X ref hi hj h]
    split_ifs
    · exact seen_promised hcommon
    · exact hcommon
  cases c with
  | ok v => exact hcommon (.inl rfl)
  | error e =>
    cases d with
    | ok v => exact seen_assign_of_error_value hX ref hi hj
    | error e' => exact hcommon (.inr rfl)

theorem seen_replaceError {e : ε} (hi : s.get? i = some (.ofContent (.error e))) (nothrow : Bool)
    (v : α) :
    seen (replaceError X i nothrow v s) = (.returns (), s.contents.set i (some (.ok v))) := by
  have hcall := special_of_not_fails hX
  cases nothrow <;> simp [replaceError, newValue, tryInPlace, hcall, hi]

theorem seen_assignValue {c : Except ε α} (hi : s.get? i = some (.ofContent c)) (nothrow : Bool)
    (v : α) :
    seen (assignValue X i nothrow v s) = (.returns (), s.contents.set i (some (.ok v))) := by
  cases c with
  | ok w => simp [assignValue, special_of_not_fails hX, hi]
  | error e => simpa [assignValue, hi] using seen_replaceError hX hi nothrow v

theorem seen_assignUnexpected {c : Except ε α} (ref : Ref) (hi : s.get? i = some (.ofContent c))
    (e : ε) :
    seen (assignUnexpected X ref i e s) = (.returns (), s.contents.set i (some (.error e))) := by
  have hcall := special_of_not_fails hX
  cases ref <;> cases c <;> simp [assignUnexpected, hcall, hi]

theorem seen_emplace {c : Except ε α} (hi : s.get? i = some (.ofContent c)) (nothrow : Bool)
    (v : α) : seen (emplace X i nothrow v s) = (.returns (), s.contents.set i (some (.ok v))) := by
  cases c with
  | ok w => simp [emplace, special_of_not_fails hX, hi]
  | error e => simpa [emplace, hi] using seen_replaceError hX hi nothrow v

/-- `std::swap` exchanges two contents, also of one object. -/
theorem seen_stdSwap {τ : Type} {u : UnionMember α ε τ} {b : Bool} (hu : u.IsMember b) {v w : τ}
    (hi : s.get? i = some ⟨some (u.inject v), b⟩) (hj : s.get? j = some ⟨some (u.inject w), b⟩) :
    seen (stdSwap X u i j s) =
      (.returns (), (s.contents.set i (some (u.inject w))).set j (some (u.inject v))) := by
  have hcall := special_of_not_fails hX
  have hread := hu.project_inject
  obtain rfl | hne := eq_or_ne i j
  · simp [stdSwap, hcall, hread, hi]
  · simp [stdSwap, hcall, hread, hi, hj, hne.symm]

theorem seen_swapOnlyOne {v : α} {e : ε} (hi : s.get? i = some (.ofContent (.ok v)))
    (hj : s.get? j = some (.ofContent (.error e))) :
    seen (swapOnlyOne X i j s) =
      (.returns (), (s.contents.set i (some (.error e))).set j (some (.ok v))) := by
  have hcall := special_of_not_fails hX
  have hne : i ≠ j := ne_of_value_error hi hj
  simp [swapOnlyOne, hcall, hi, hj, hne, hne.symm]

/-- A swap exchanges two contents. -/
theorem seen_swap {c d : Except ε α} (hi : s.get? i = some (.ofContent c))
    (hj : s.get? j = some (.ofContent d)) :
    seen (swap X i j s) = (.returns (), (s.contents.set i (some d)).set j (some c)) := by
  cases c with
  | ok v =>
    cases d with
    | ok w => simpa [swap, hi, hj] using seen_stdSwap hX X.isMember_val hi hj
    | error e => simpa [swap, hi, hj] using seen_swapOnlyOne hX hi hj
  | error e =>
    cases d with
    | ok v =>
      have hne : j ≠ i := ne_of_value_error hj hi
      rw [List.set_comm _ _ hne.symm]
      simpa [swap, hi, hj] using seen_swapOnlyOne hX hj hi
    | error e' => simpa [swap, hi, hj] using seen_stdSwap hX X.isMember_err hi hj

omit hX

theorem seen_destructor {c : Except ε α} (hi : s.get? i = some (.ofContent c)) :
    seen (destructor X i s) = (.returns (), s.contents.set i none) := by
  cases c <;> simp [destructor, hi]

include hX

/-- **One operation**, where no call throws. -/
theorem exec_contents (hs : Sound s n) {op : Op α ε} (h : Permitted X (Lives s) op) :
    seen (exec X op s) = s.contents.exec X op := by
  have hcall := special_of_not_fails hX
  have hget : ∀ {k c}, s.get? k = some (.ofContent c) → s.contents.get? k = some c := by
    intro k c hk
    rw [Memory.contents_get?, hk]
    rfl
  cases op with
  | inPlace v => simp [exec, constructInPlace, hcall, Contents.exec]
  | unexpect e => simp [exec, constructUnexpect, hcall, Contents.exec]
  | construct ref j =>
    obtain ⟨c, hj⟩ := hs.get h
    rw [Contents.exec, hget hj]
    exact seen_next (seen_constructFrom hX ref hj) _
  | convert v c => exact seen_next (seen_constructConverting hX v c) _
  | assign ref i j =>
    obtain ⟨c, hi⟩ := hs.get h.1
    obtain ⟨d, hj⟩ := hs.get h.2
    rw [Contents.exec, hget hj]
    exact seen_next (seen_assign hX ref hi hj) _
  | assignValue i nothrow v =>
    obtain ⟨c, hi⟩ := hs.get h.1
    exact seen_next (seen_assignValue hX hi nothrow v) _
  | assignUnexpected ref i e =>
    obtain ⟨c, hi⟩ := hs.get h.1
    exact seen_next (seen_assignUnexpected hX ref hi e) _
  | emplace i nothrow v =>
    obtain ⟨c, hi⟩ := hs.get h
    exact seen_next (seen_emplace hX hi nothrow v) _
  | swap i j =>
    obtain ⟨c, hi⟩ := hs.get h.1
    obtain ⟨d, hj⟩ := hs.get h.2.1
    rw [Contents.exec, hget hi, hget hj]
    exact seen_next (seen_swap hX hi hj) _
  | value i =>
    obtain ⟨c, hi⟩ := hs.get h
    rw [Contents.exec, hget hi]
    cases c <;> simp [exec, value, hi]
  | deref i =>
    obtain ⟨c, hi⟩ := hs.get h
    rw [Contents.exec, hget hi]
    cases c <;> simp [exec, deref, hi]
  | error i =>
    obtain ⟨c, hi⟩ := hs.get h
    rw [Contents.exec, hget hi]
    cases c <;> simp [exec, error, hi]
  | destroy i =>
    obtain ⟨c, hi⟩ := hs.get h
    exact seen_next (seen_destructor hi) _

omit hX

/-- A step of a program, seen so. -/
theorem step_view (hX : ∀ k, X.fails k = false) (op : Op α ε) {s : State α ε} (hs : s.Sound) :
    (step X op s).map State.view = ContentState.step X op s.view := by
  by_cases hgoes : s.last.GoesOn
  · have hlives : s.memory.contents.Lives = Lives s.memory :=
      funext fun i => propext (hs hgoes).lives_iff
    by_cases hop : Permitted X (Lives s.memory) op
    · have hexec := exec_contents hX (hs hgoes) hop
      rw [step, ContentState.step, if_pos ⟨hgoes, hop⟩, if_pos ⟨hgoes, by rwa [← hlives] at hop⟩]
      simp only [State.view, ← hexec]
      rfl
    · have hop' : ¬ Permitted X s.memory.contents.Lives op := by rwa [hlives]
      rw [step, ContentState.step, if_neg (hop ·.2), if_neg (hop' ·.2)]
      rfl
  · rw [step, ContentState.step, if_neg (hgoes ·.1), if_neg (hgoes ·.1)]
    rfl

/-- **The refinement**: where no call throws, a program with objects goes through the contents that
the program with contents goes through, reads what that one reads, and loses its meaning and gets
stuck with it. -/
theorem run_contents (hX : ∀ k, X.fails k = false) (ops : List (Op α ε)) :
    (Machine.run (step X) ops State.init).map State.view =
      Machine.run (ContentState.step X) ops ContentState.init :=
  Machine.run_map State.view (fun _ _ _ hs h => State.sound_step hs h)
    (fun op _ hs => step_view hX op hs) ops State.sound_init

theorem run_contents_assign :
    (Machine.run (step (mayThrow fun _ => false)) [.inPlace 1, .unexpect 2, .assign .move 1 0]
        State.init).map State.view =
      Machine.run (ContentState.step (mayThrow fun _ => false))
        [.inPlace 1, .unexpect 2, .assign .move 1 0] ContentState.init :=
  run_contents (fun _ => rfl) _

end Refinement

end Tl

end RcppUtils
