import RcppUtils.Path.Coherent
import RcppUtils.Program.Machine

/-!
# Sequences of path operations

A program that works with paths holds them in variables; each public operation of the class
computes one path from others and stores it in a variable.

## Main definitions

* `Store`, `Op`, `exec`: the variables, the operations, and the effect of an operation
* `Aligned op σ`: the operation `op` updates string and components alike
* `Reachable p`: the values of variables after any sequence of operations

## Main results

* `Op.value_cases`: what an operation computes
* `everyState_coherent_iff`: when every path of a run is coherent
* `Reachable.coherent_or_rootless`: every path is coherent or rootless
-/

namespace RcppUtils

namespace Path

/-- The path variables of a program. -/
abbrev Store := ℕ → Path

/-- The public operations, with the variable of their result and those of their operands. -/
inductive Op
  | default (x : ℕ)
  | construct (x : ℕ) (s : StdString)
  | assign (x y : ℕ)
  | divide (x y z : ℕ)
  | append (x y : ℕ)
  | parentPath (x y : ℕ)
  | filename (x y : ℕ)
  | extension (x y : ℕ)
  | removeExtension (x y : ℕ) (nTimes : ℤ)

/-- The variable that an operation assigns. -/
def Op.target : Op → ℕ
  | default x | construct x _ | assign x _ | divide x _ _ | append x _ | parentPath x _
  | filename x _ | extension x _ | removeExtension x _ _ => x

/-- The path that an operation computes, when it is defined. -/
def Op.value (σ : Store) : Op → Option Path
  | default _ => some Inhabited.default
  | construct _ s => some (ofString .posix s)
  | assign _ y => some (σ y)
  | divide _ y z => some ((σ y).append .posix (σ z))
  -- appending a relative path to itself inserts a vector into itself
  | append x y =>
    if x = y ∧ (σ y).isAbsolute .posix = false then none
    else some ((σ x).append .posix (σ y))
  | parentPath _ y => (σ y).parentPath .posix
  | filename _ y => (σ y).filename .posix
  | extension _ y => (σ y).extension .posix
  | removeExtension _ y nTimes => some ((σ y).removeExtension .posix nTimes)

/-- The effect of an operation on the variables. -/
def exec (op : Op) (σ : Store) : Option Store :=
  (op.value σ).map (Function.update σ op.target)

/-- The operation updates the string and the components alike: it appends no relative path to an
empty one, and it takes no parent of an absolute path of two components or more. -/
def Aligned (op : Op) (σ : Store) : Prop :=
  match op with
  | .divide _ y z => (σ y).path ≠ [] ∨ (σ z).isAbsolute .posix = true
  | .append x y => (σ x).path ≠ [] ∨ (σ y).isAbsolute .posix = true
  | .parentPath _ y => ¬ ((σ y).isAbsolute .posix = true ∧ 2 ≤ (σ y).pathAsVector.length)
  | _ => True

/-! ## The value of one operation -/

theorem coherent_filename {p q : Path} (h : p.filename .posix = some q) : q.Coherent := by
  unfold filename at h
  split_ifs at h
  · obtain rfl : default = q := Option.some_inj.mp h
    exact coherent_default
  · obtain ⟨c, -, rfl⟩ := Option.map_eq_some_iff.mp h
    exact coherent_ofString c

theorem coherent_extension {p q : Path} (h : p.extension .posix = some q) : q.Coherent := by
  unfold extension at h
  dsimp only at h
  split_ifs at h
  · obtain rfl : ofString .posix [] = q := Option.some_inj.mp h
    exact coherent_ofString []
  · obtain ⟨back, -, rfl⟩ := Option.map_eq_some_iff.mp h
    exact coherent_ofString _

/-- Removing extensions returns the path itself, or one built from a string. -/
theorem removeExtensionLoop_eq_or (n : ℕ) (p : Path) :
    removeExtensionLoop .posix n p = p ∨ (removeExtensionLoop .posix n p).Coherent := by
  induction n generalizing p with
  | zero => exact .inl rfl
  | succ n ih =>
    rw [removeExtensionLoop]
    cases findLastOf p.path '.' with
    | none => exact .inl rfl
    | some lastDot =>
      rcases ih (ofString .posix (p.path.take lastDot)) with h | h
      · right
        show (removeExtensionLoop .posix n _).Coherent
        rw [h]
        exact coherent_ofString _
      · exact .inr h

/-- **What an operation computes**: a path built from a string, a path that a variable holds, a
joined path, or a parent. -/
theorem Op.value_cases {σ : Store} {op : Op} {p : Path} (h : op.value σ = some p) :
    (p.Coherent ∧ Aligned op σ) ∨ (∃ y, p = σ y ∧ Aligned op σ) ∨
      (∃ y z, p = (σ y).append .posix (σ z) ∧
        (Aligned op σ ↔ (σ y).path ≠ [] ∨ (σ z).isAbsolute .posix = true)) ∨
      ∃ y, (σ y).parentPath .posix = some p ∧
        (Aligned op σ ↔ ¬ ((σ y).isAbsolute .posix = true ∧ 2 ≤ (σ y).pathAsVector.length)) := by
  cases op with
  | default x =>
    obtain rfl : Inhabited.default = p := Option.some_inj.mp h
    exact .inl ⟨coherent_default, trivial⟩
  | construct x s =>
    obtain rfl : ofString .posix s = p := Option.some_inj.mp h
    exact .inl ⟨coherent_ofString s, trivial⟩
  | assign x y =>
    obtain rfl : σ y = p := Option.some_inj.mp h
    exact .inr (.inl ⟨y, rfl, trivial⟩)
  | divide x y z =>
    obtain rfl : (σ y).append .posix (σ z) = p := Option.some_inj.mp h
    exact .inr (.inr (.inl ⟨y, z, rfl, Iff.rfl⟩))
  | append x y =>
    simp only [Op.value] at h
    split_ifs at h
    obtain rfl : (σ x).append .posix (σ y) = p := Option.some_inj.mp h
    exact .inr (.inr (.inl ⟨x, y, rfl, Iff.rfl⟩))
  | parentPath x y => exact .inr (.inr (.inr ⟨y, h, Iff.rfl⟩))
  | filename x y => exact .inl ⟨coherent_filename h, trivial⟩
  | extension x y => exact .inl ⟨coherent_extension h, trivial⟩
  | removeExtension x y n =>
    obtain rfl : (σ y).removeExtension .posix n = p := Option.some_inj.mp h
    rcases removeExtensionLoop_eq_or n.toNat (σ y) with he | hc
    · exact .inr (.inl ⟨y, he, trivial⟩)
    · exact .inl ⟨hc, trivial⟩

/-- An operation on coherent paths computes a coherent one exactly when it is aligned. -/
theorem Op.coherent_value_iff {σ : Store} (hσ : ∀ x, (σ x).Coherent) {op : Op} {p : Path}
    (h : op.value σ = some p) : p.Coherent ↔ Aligned op σ := by
  rcases Op.value_cases h with ⟨hco, hal⟩ | ⟨y, rfl, hal⟩ | ⟨y, z, rfl, hal⟩ | ⟨y, hp, hal⟩
  · exact iff_of_true hco hal
  · exact iff_of_true (hσ y) hal
  · rw [hal]
    exact (hσ y).append_iff (hσ z)
  · obtain ⟨q, hq, hiff⟩ := (hσ y).parentPath_iff
    obtain rfl : q = p := Option.some_inj.mp (hq.symm.trans hp)
    rw [hal]
    exact hiff

/-- An operation changes its target only, so a property of all variables is kept exactly when the
new value has it. -/
theorem exec_forall_iff {P : Path → Prop} {op : Op} {σ σ' : Store} (hσ : ∀ x, P (σ x))
    (h : exec op σ = some σ') : ∃ p, op.value σ = some p ∧ ((∀ x, P (σ' x)) ↔ P p) := by
  obtain ⟨p, hp, rfl⟩ := Option.map_eq_some_iff.mp h
  refine ⟨p, hp, ?_⟩
  constructor
  · intro hall
    simpa using hall op.target
  · intro hnew x
    by_cases hx : x = op.target
    · subst hx
      simpa using hnew
    · simpa [Function.update_of_ne hx] using hσ x

/-! ## Runs -/

/-- The representation invariant: string and components agree in every variable, and equal paths
have the same components. -/
structure StoreInvariant (σ : Store) : Prop where
  pathAsVector_eq : ∀ x, (σ x).pathAsVector = split (σ x).path '/' false
  eq_ofString : ∀ x, σ x = ofString .posix (σ x).path
  components_of_equal : ∀ x y, equal (σ x) (σ y) = true → (σ x).pathAsVector = (σ y).pathAsVector

theorem storeInvariant_iff {σ : Store} : StoreInvariant σ ↔ ∀ x, (σ x).Coherent := by
  constructor
  · intro h x
    exact coherent_iff.mpr (h.eq_ofString x)
  · intro h
    refine ⟨?_, fun x => coherent_iff.mp (h x), ?_⟩
    · intro x
      rw [split_eq_tokens]
      exact (h x).pathAsVector_eq
    · intro x y he
      have hpath : (σ x).path = (σ y).path := by simpa [equal] using he
      rw [(h x).ext (h y) hpath]

/-- **What one operation preserves**: from coherent variables it leads to coherent variables
exactly when it is aligned. -/
theorem storeInvariant_exec_iff {op : Op} {σ σ' : Store} (hσ : StoreInvariant σ)
    (h : exec op σ = some σ') : StoreInvariant σ' ↔ Aligned op σ := by
  rw [storeInvariant_iff] at hσ ⊢
  obtain ⟨p, hp, hiff⟩ := exec_forall_iff hσ h
  rw [hiff]
  exact Op.coherent_value_iff hσ hp

/-- **The representation invariant holds along a run exactly when its steps are aligned.** -/
theorem everyState_coherent_iff (ops : List Op) :
    Machine.EveryState exec StoreInvariant ops (fun _ => default) ↔
      Machine.EveryStep exec Aligned ops (fun _ => default) := by
  apply Machine.everyState_iff_everyStep (fun op σ σ' hσ h => storeInvariant_exec_iff hσ h)
  exact storeInvariant_iff.mpr fun _ => coherent_default

/-- The parent of `/foo` is `/` with no component, where `path("/")` has one. -/
theorem not_everyState_coherent_parentPath_foo :
    ¬ Machine.EveryState exec StoreInvariant
      [.construct 0 "/foo".toList, .parentPath 1 0] (fun _ => default) := by
  intro h
  have hlast := h.2 _ rfl
  have hinv := (hlast.2 _ rfl).pathAsVector_eq 1
  revert hinv
  decide

/-! ## Reachable paths -/

/-- `p` is the value of a variable after some sequence of defined operations. -/
def Reachable (p : Path) : Prop :=
  ∃ ops σ x, Machine.run exec ops (fun _ => default) = some σ ∧ σ x = p

/-- Appending keeps paths coherent or rootless. -/
theorem coherent_or_rootless_append {p q : Path} (hp : p.Coherent ∨ p.Rootless)
    (hq : q.Coherent ∨ q.Rootless) :
    (p.append .posix q).Coherent ∨ (p.append .posix q).Rootless := by
  by_cases habs : q.isAbsolute .posix = true
  · rwa [append_of_isAbsolute habs]
  -- a relative operand is coherent
  have hrel : q.isAbsolute .posix = false := by simpa using habs
  have hq : q.Coherent := hq.resolve_right fun h => habs h.isAbsolute
  rcases hp with hp | hp
  · by_cases hnil : p.path = []
    · exact .inr (hp.rootless_append hq hnil hrel)
    · exact .inl (hp.append hq (.inl hnil))
  · exact .inr (hp.append hq hrel)

theorem coherent_or_rootless_parentPath {p q : Path} (hp : p.Coherent ∨ p.Rootless)
    (h : p.parentPath .posix = some q) : q.Coherent ∨ q.Rootless := by
  -- the loop of `parent_path` drops the root
  by_cases habs : p.isAbsolute .posix = true ∧ 2 ≤ p.pathAsVector.length
  · obtain ⟨q', hq', hroot, -⟩ := rootless_parentPath hp habs.1 habs.2
    obtain rfl : q' = q := Option.some_inj.mp (hq'.symm.trans h)
    exact .inr hroot
  rcases hp with hp | hp
  · obtain ⟨q', hq', hiff⟩ := hp.parentPath_iff
    obtain rfl : q' = q := Option.some_inj.mp (hq'.symm.trans h)
    exact .inl (hiff.mpr habs)
  · -- a rootless path of at most one component
    have hv : ¬ 2 ≤ p.pathAsVector.length := fun hv => habs ⟨hp.isAbsolute, hv⟩
    by_cases hnil : p.pathAsVector = []
    · simp [parentPath_eq_none hp.path_ne_nil hnil] at h
    · obtain ⟨c, hc⟩ := exists_eq_singleton hnil hv
      rw [parentPath_of_singleton hp.path_ne_nil hc] at h
      obtain rfl := Option.some_inj.mp h
      exact .inl (coherent_ofString _)

theorem Op.coherent_or_rootless_value {σ : Store} (hσ : ∀ x, (σ x).Coherent ∨ (σ x).Rootless)
    {op : Op} {p : Path} (h : op.value σ = some p) : p.Coherent ∨ p.Rootless := by
  rcases Op.value_cases h with ⟨hco, -⟩ | ⟨y, rfl, -⟩ | ⟨y, z, rfl, -⟩ | ⟨y, hp, -⟩
  · exact .inl hco
  · exact hσ y
  · exact coherent_or_rootless_append (hσ y) (hσ z)
  · exact coherent_or_rootless_parentPath (hσ y) hp

/-- **Every path that a program can hold is coherent or rootless.** -/
theorem Reachable.coherent_or_rootless {p : Path} (h : Reachable p) :
    p.Coherent ∨ p.Rootless := by
  obtain ⟨ops, σ, x, hrun, rfl⟩ := h
  refine Machine.run_invariant (I := fun σ : Store => ∀ x, (σ x).Coherent ∨ (σ x).Rootless)
    ?_ (fun _ => .inl coherent_default) hrun x
  intro op σ σ' hσ hexec
  obtain ⟨p, hp, hiff⟩ := exec_forall_iff (P := fun q => q.Coherent ∨ q.Rootless) hσ hexec
  exact hiff.mpr (Op.coherent_or_rootless_value hσ hp)

end Path

end RcppUtils
