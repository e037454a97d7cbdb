import RcppUtils.Path.Coherent

/-!
# Walking up

The parents of a relative path lose one component after the other and end at `.`. The parents of
an absolute path lack the root, and end at `/` all the same, unless the first of them has no
component left: that one has no parent.

## Main definitions

* `ancestor n p`: the path after `n` calls of `parent_path`
* `WalksUp s`: the calls are all defined, and end at the top that `s` should have

## Main results

* `walksUp_iff`: where walking up is defined and ends
-/

namespace RcppUtils

namespace Path

/-- The path after `n` calls of `parent_path`. -/
def ancestor : ℕ → Path → Option Path
  | 0, p => some p
  | n + 1, p => (p.parentPath .posix).bind (ancestor n)

/-- After at most `b` calls, walking up from `p` reaches a path that is its own parent and has
the string `top`. -/
def Reaches (top : StdString) (b : ℕ) (p : Path) : Prop :=
  ∃ n ≤ b, ∃ q, ancestor n p = some q ∧ q.parentPath .posix = some q ∧ q.path = top

/-- Where walking up from `s` should end. -/
def top (s : StdString) : StdString :=
  if (ofString .posix s).isAbsolute .posix then ['/'] else if s = [] then [] else ['.']

/-- Walking up from `s` is defined at every step, and reaches the top of `s` after at most as
many steps as `s` has components. -/
def WalksUp (s : StdString) : Prop :=
  (∀ n, ancestor n (ofString .posix s) ≠ none) ∧
    Reaches (top s) (ofString .posix s).pathAsVector.length (ofString .posix s)

theorem ancestor_add (m n : ℕ) (p : Path) :
    ancestor (m + n) p = (ancestor m p).bind (ancestor n) := by
  induction m generalizing p with
  | zero => simp [ancestor]
  | succ m ih =>
    rw [Nat.succ_add, ancestor, ancestor, Option.bind_assoc]
    exact congrArg _ (funext ih)

theorem ancestor_of_fixed {q : Path} (h : q.parentPath .posix = some q) (n : ℕ) :
    ancestor n q = some q := by
  induction n with
  | zero => rfl
  | succ n ih => rw [ancestor, h, Option.bind_some, ih]

/-- A walk that ends is defined at every step. -/
theorem Reaches.ancestor_ne_none {top : StdString} {b : ℕ} {p : Path} (h : Reaches top b p)
    (n : ℕ) : ancestor n p ≠ none := by
  obtain ⟨m, -, q, hm, hq, -⟩ := h
  -- the step `n` lies before the end or at it
  rcases le_total n m with hle | hle
  · obtain ⟨k, rfl⟩ := Nat.exists_eq_add_of_le hle
    intro hnone
    simp [ancestor_add, hnone] at hm
  · obtain ⟨k, rfl⟩ := Nat.exists_eq_add_of_le hle
    simp [ancestor_add, hm, ancestor_of_fixed hq]

theorem reaches_of_fixed {q : Path} (h : q.parentPath .posix = some q) (b : ℕ) :
    Reaches q.path b q :=
  ⟨0, Nat.zero_le b, q, rfl, h, rfl⟩

theorem Reaches.of_parentPath {top : StdString} {b b' : ℕ} {p q : Path}
    (hpq : p.parentPath .posix = some q) (h : Reaches top b q) (hb : b < b') :
    Reaches top b' p := by
  obtain ⟨n, hn, r, hr, hfix, htop⟩ := h
  refine ⟨n + 1, by omega, r, ?_, hfix, htop⟩
  rw [ancestor, hpq, Option.bind_some, hr]

/-! ## The ends of the walk -/

theorem parentPath_dot :
    (ofString .posix ['.']).parentPath .posix = some (ofString .posix ['.']) := by
  decide

theorem parentPath_root :
    (ofString .posix ['/']).parentPath .posix = some (ofString .posix ['/']) := by
  decide

theorem length_filter_dropLast_lt {cs : List StdString} (h : cs ≠ []) :
    (cs.dropLast.filter (· ≠ [])).length < cs.length := by
  have hle := List.length_filter_le (· ≠ []) cs.dropLast
  have hpos := List.length_pos_iff.mpr h
  rw [List.length_dropLast] at hle
  omega

/-- Walking up from a relative path ends at `.`. -/
theorem Coherent.reaches_dot {p : Path} (hp : p.Coherent) (habs : p.isAbsolute .posix = false)
    (hne : p.pathAsVector ≠ []) : Reaches ['.'] p.pathAsVector.length p := by
  -- the induction is on the number of components
  induction hlen : p.pathAsVector.length using Nat.strong_induction_on generalizing p with
  | _ l ih =>
    subst hlen
    have hpath : p.path ≠ [] := fun h => hne (hp.pathAsVector_eq_nil.mpr h)
    by_cases hv : 2 ≤ p.pathAsVector.length
    · -- the parent has fewer components
      obtain ⟨q, hq, hco, hrel, hqne, hvec⟩ := hp.parentPath_of_relative habs hv
      have hlt : q.pathAsVector.length < p.pathAsVector.length := by
        rw [hvec]
        exact length_filter_dropLast_lt hne
      exact (ih _ hlt hco hrel hqne rfl).of_parentPath hq hlt
    · -- the parent of a single component is `.`
      obtain ⟨c, hc⟩ := exists_eq_singleton hne hv
      have hparent := parentPath_of_singleton hpath hc
      rw [habs, if_neg Bool.false_ne_true] at hparent
      exact (reaches_of_fixed parentPath_dot 0).of_parentPath hparent (by simp [hc])

/-- Walking up from a rootless path with a component ends at `/`. -/
theorem Rootless.reaches_root {p : Path} (hp : p.Rootless) (hne : p.pathAsVector ≠ []) :
    Reaches ['/'] p.pathAsVector.length p := by
  -- the induction is on the number of components
  induction hlen : p.pathAsVector.length using Nat.strong_induction_on generalizing p with
  | _ l ih =>
    subst hlen
    by_cases hv : 2 ≤ p.pathAsVector.length
    · obtain ⟨q, hq, hroot, hvec⟩ := rootless_parentPath (.inr hp) hp.isAbsolute hv
      have hlt : q.pathAsVector.length < p.pathAsVector.length := by
        rw [hvec]
        exact length_filter_dropLast_lt hne
      -- the first component is not empty, and it is not the last
      have hqne : q.pathAsVector ≠ [] := by
        obtain ⟨c, c', cs, he⟩ := two_le_length_iff.mp hv
        have hc : c ≠ [] := by
          have := hp.head?_ne
          simpa [he] using this
        rw [hvec, he, List.dropLast_cons_cons, List.filter_cons_of_pos (by simpa using hc)]
        exact List.cons_ne_nil _ _
      exact (ih _ hlt hroot hqne rfl).of_parentPath hq hlt
    · obtain ⟨c, hc⟩ := exists_eq_singleton hne hv
      have hparent := parentPath_of_singleton hp.path_ne_nil hc
      rw [hp.isAbsolute, if_pos rfl] at hparent
      exact (reaches_of_fixed parentPath_root 0).of_parentPath hparent (by simp [hc])

theorem path_ofString_eq_nil {s : StdString} : (ofString .posix s).path = [] ↔ s = [] := by
  rw [ofString_path, stdReplace, List.map_eq_nil_iff]

/-- **Walking up ends at the top, unless** the path is absolute, has two components or more, and
all of them but the last are empty. -/
theorem walksUp_iff (s : StdString) :
    WalksUp s ↔ ¬ ((ofString .posix s).isAbsolute .posix = true ∧
      2 ≤ (ofString .posix s).pathAsVector.length ∧
      ∀ c ∈ (ofString .posix s).pathAsVector.dropLast, c = []) := by
  have hp := coherent_ofString s
  have ends : Reaches (top s) (ofString .posix s).pathAsVector.length (ofString .posix s) →
      WalksUp s := fun h => ⟨h.ancestor_ne_none, h⟩
  cases habs : (ofString .posix s).isAbsolute .posix with
  | false =>
    refine iff_of_true (ends ?_) (by simp)
    rw [top, habs, if_neg Bool.false_ne_true]
    by_cases hs : s = []
    · subst hs
      exact reaches_of_fixed rfl _
    · rw [if_neg hs]
      apply hp.reaches_dot habs
      intro h
      apply hs
      exact path_ofString_eq_nil.mp (hp.pathAsVector_eq_nil.mp h)
  | true =>
    have htop : top s = ['/'] := by rw [top, habs, if_pos rfl]
    obtain ⟨cs, hcs⟩ := hp.exists_cons habs
    by_cases hv : 2 ≤ (ofString .posix s).pathAsVector.length
    · obtain ⟨q, hq, hroot, hvec⟩ := rootless_parentPath (.inl hp) habs hv
      by_cases hnil : ∀ c ∈ (ofString .posix s).pathAsVector.dropLast, c = []
      · -- the parent has no component, and no parent
        refine iff_of_false (fun h => h.1 2 ?_) (not_not.mpr ⟨rfl, hv, hnil⟩)
        have hqnil : q.pathAsVector = [] := by
          rw [hvec, List.filter_eq_nil_iff]
          simpa using hnil
        rw [ancestor, hq, Option.bind_some, ancestor, parentPath_eq_none hroot.path_ne_nil hqnil,
          Option.bind_none]
      · -- a component of the parent is not empty, so the walk goes on to the root
        refine iff_of_true (ends ?_) fun h => hnil h.2.2
        have hqne : q.pathAsVector ≠ [] := by
          intro h
          rw [hvec, List.filter_eq_nil_iff] at h
          exact hnil fun c hc => by simpa using h c hc
        have hlt : q.pathAsVector.length < (ofString .posix s).pathAsVector.length := by
          rw [hvec]
          exact length_filter_dropLast_lt (by simp [hcs])
        exact htop ▸ (hroot.reaches_root hqne).of_parentPath hq hlt
    · refine iff_of_true (ends ?_) fun h => hv h.2.1
      -- the root alone
      have hnil : cs = [] := by
        obtain ⟨c, hc⟩ := exists_eq_singleton (by simp [hcs]) hv
        exact (List.cons.inj (hcs.symm.trans hc)).2
      have hpath : (ofString .posix s).path = ['/'] := by
        apply tokens_eq_singleton_nil.mp
        rw [← hp.pathAsVector_eq, hcs, hnil]
      have heq : ofString .posix s = ofString .posix ['/'] :=
        hp.ext (coherent_ofString _) hpath
      rw [htop, heq]
      exact reaches_of_fixed parentPath_root _

/-- The grandparent of `/foo` is not defined. -/
theorem not_walksUp_foo : ¬ WalksUp "/foo".toList := fun h => h.1 2 (by decide)

end Path

end RcppUtils
