import RcppUtils.Path.Coherent
import RcppUtils.Path.Extension

/-!
# Drive roots

On the Windows build a path is absolute when its string begins with a drive letter, a colon and a
backslash. The bare first component `X:` is not such a path: the loop of `parent_path` starts from
it, and the first piece that is appended puts the backslash behind it again.

## Main definitions

* `ancestorOn os n p`: the path after `n` calls of `parent_path` on a build
* `OnDrive X p`: an absolute path with the drive letter `X`, whose components begin with `X:`
* `StaysOnDrive X p`: what is said of the ancestors of a path

## Main results

* `OnDrive.parentPath`: a parent stays on the drive, with fewer components unless it is the root
* `staysOnDrive_ofString`: all ancestors stay on the drive, and end at its root
-/

namespace RcppUtils

namespace Path

/-- The path after `n` calls of `parent_path`. -/
def ancestorOn (os : Platform) : ℕ → Path → Option Path
  | 0, p => some p
  | n + 1, p => (p.parentPath os).bind (ancestorOn os n)

/-! ## Components on the Windows build -/

variable {X : Char} {p q : Path} {c : StdString} {cs : List StdString}

theorem IsComponent.native (h : IsComponent c) (os : Platform) : Native os c := by
  rintro a ha (rfl | rfl)
  · exact absurd ha h.backslash_notMem
  · exact absurd ha h.slash_notMem

theorem IsComponent.ofString_win32 (h : IsComponent c) :
    ofString .win32 c = ⟨c, if c = [] then [] else [c]⟩ := by
  have hv : (ofString .win32 c).pathAsVector = tokens '\\' (ofString .win32 c).path :=
    split_eq_tokens _ _
  have hp : (ofString .win32 c).path = c := (h.native .win32).ofString_path
  have htok : tokens '\\' c = if c = [] then [] else [c] := by
    split_ifs with hc
    · rw [hc, tokens_nil]
    · exact tokens_of_notMem h.backslash_notMem hc
  rw [hp, htok] at hv
  exact congrArg₂ Path.mk hp hv

theorem IsComponent.isAbsolute_win32 (h : IsComponent c) :
    (⟨c, cs⟩ : Path).isAbsolute .win32 = false := by
  cases c with
  | nil => rfl
  | cons a c =>
    have ha : a ≠ '\\' := fun he => h.backslash_notMem (by simp [he])
    have hdrive : (c.take 2 == [':', '\\']) = false := by
      rw [beq_eq_false_iff_ne]
      intro he
      have hmem : '\\' ∈ c.take 2 := by simp [he]
      exact h.backslash_notMem (List.mem_cons_of_mem a (List.mem_of_mem_take hmem))
    simp [Path.isAbsolute, isAbsoluteWithDriveLetter, kPreferredSeparator, ha, hdrive]

theorem IsComponent.append_win32 (h : IsComponent c) (p : Path) :
    p.append .win32 (ofString .win32 c) =
      ⟨withSeparator .win32 p.path ++ c, p.pathAsVector ++ if c = [] then [] else [c]⟩ := by
  rw [h.ofString_win32, append, h.isAbsolute_win32, if_neg Bool.false_ne_true]

/-! ## Paths on a drive -/

/-- A path whose string begins with the drive letter, a colon and a backslash, and whose first
component is the drive letter and the colon. -/
structure OnDrive (X : Char) (p : Path) : Prop where
  prefix_path : [X, ':', '\\'] <+: p.path
  exists_cons : ∃ cs, p.pathAsVector = [X, ':'] :: cs ∧ ∀ c ∈ cs, IsComponent c

theorem OnDrive.isAbsoluteWithDriveLetter (h : OnDrive X p) :
    isAbsoluteWithDriveLetter .win32 p.path = true := by
  obtain ⟨rest, hp⟩ := h.prefix_path
  rw [← hp]
  rfl

theorem OnDrive.isAbsolute (h : OnDrive X p) : p.isAbsolute .win32 = true := by
  have hdrive := h.isAbsoluteWithDriveLetter
  obtain ⟨rest, hp⟩ := h.prefix_path
  rw [← hp] at hdrive
  rw [Path.isAbsolute, ← hp]
  simpa using .inr hdrive

theorem OnDrive.path_ne_nil (h : OnDrive X p) : p.path ≠ [] := by
  obtain ⟨rest, hp⟩ := h.prefix_path
  rw [← hp]
  simp

/-- A piece appended to a path on the drive. -/
theorem OnDrive.append (h : OnDrive X p) (hc : IsComponent c) :
    OnDrive X (p.append .win32 (ofString .win32 c)) := by
  rw [hc.append_win32]
  constructor
  · refine h.prefix_path.trans ?_
    unfold withSeparator
    split_ifs <;> simp
  · obtain ⟨cs, hv, hcs⟩ := h.exists_cons
    refine ⟨cs ++ if c = [] then [] else [c], by simp [hv], ?_⟩
    intro d hd
    split_ifs at hd
    · exact hcs d (by simpa using hd)
    · rcases List.mem_append.mp hd with hd | hd
      · exact hcs d hd
      · rwa [List.mem_singleton.mp hd]

/-! ## The parent -/

/-- The pieces that the loop of `parent_path` appends. -/
theorem OnDrive.foldl_parentStep (h : OnDrive X q) (hcs : ∀ c ∈ cs, IsComponent c) :
    OnDrive X (cs.foldl (parentStep .win32 p) q) ∧
      (cs.foldl (parentStep .win32 p) q).pathAsVector.length ≤
        q.pathAsVector.length + cs.length := by
  induction cs generalizing q with
  | nil => exact ⟨h, le_rfl⟩
  | cons c cs ih =>
    obtain ⟨hc, hcs⟩ := List.forall_mem_cons.mp hcs
    have hstep : parentStep .win32 p q c = q.append .win32 (ofString .win32 c) := by
      simp [parentStep, h.path_ne_nil]
    have hlen : (q.append .win32 (ofString .win32 c)).pathAsVector.length ≤
        q.pathAsVector.length + 1 := by
      rw [hc.append_win32]
      split_ifs <;> simp
    obtain ⟨hdrive, hle⟩ := ih (h.append hc) hcs
    rw [List.foldl_cons, hstep, List.length_cons]
    exact ⟨hdrive, by omega⟩

/-- The root of a drive. -/
def driveRoot (X : Char) : Path := ofString .win32 [X, ':', '\\']

/-- The loop starts from the drive letter, and the first piece puts a backslash behind it. -/
theorem onDrive_append_letter (hX : IsComponent [X, ':']) (hc : IsComponent c) :
    OnDrive X ((ofString .win32 [X, ':']).append .win32 (ofString .win32 c)) := by
  rw [hc.append_win32, hX.ofString_win32]
  refine ⟨⟨c, rfl⟩, if c = [] then [] else [c], rfl, ?_⟩
  intro d hd
  split_ifs at hd
  · cases hd
  · rwa [List.mem_singleton.mp hd]

theorem onDrive_driveRoot (hX : IsComponent [X, ':']) :
    OnDrive X (driveRoot X) ∧ (driveRoot X).path = [X, ':', '\\'] ∧
      (driveRoot X).pathAsVector = [[X, ':']] := by
  have hnat : Native .win32 [X, ':', '\\'] := by
    intro a ha hsep
    rcases List.mem_append.mp (show a ∈ [X, ':'] ++ ['\\'] from ha) with ha | ha
    · exact hX.native .win32 a ha hsep
    · exact List.mem_singleton.mp ha
  have hp : (driveRoot X).path = [X, ':', '\\'] := hnat.ofString_path
  have hv : (driveRoot X).pathAsVector = tokens '\\' (driveRoot X).path := split_eq_tokens _ _
  rw [hp, show [X, ':', '\\'] = [X, ':'] ++ ['\\'] from rfl, tokens_concat,
    List.splitOn_eq_singleton hX.backslash_notMem] at hv
  exact ⟨⟨hp ▸ List.prefix_rfl, [], hv, by simp⟩, hp, hv⟩

/-- **A parent stays on the drive.** It has fewer components, or both paths are at the root. -/
theorem OnDrive.parentPath (hX : IsComponent [X, ':']) (h : OnDrive X p) :
    ∃ q, p.parentPath .win32 = some q ∧ OnDrive X q ∧
      (q = driveRoot X ∨ q.pathAsVector.length < p.pathAsVector.length) := by
  obtain ⟨hroot, -, -⟩ := onDrive_driveRoot hX
  obtain ⟨cs, hv, hcs⟩ := h.exists_cons
  have habs := h.isAbsolute
  have hdrive := h.isAbsoluteWithDriveLetter
  rcases cs with _ | ⟨c, _ | ⟨c', cs⟩⟩
  · -- the drive itself, and one component on it: the parent is the root
    refine ⟨driveRoot X, ?_, hroot, .inl rfl⟩
    simp [Path.parentPath, h.path_ne_nil, hv, habs, hdrive, driveRoot, kPreferredSeparator]
  · refine ⟨driveRoot X, ?_, hroot, .inl rfl⟩
    simp [Path.parentPath, h.path_ne_nil, hv, hdrive, driveRoot, kPreferredSeparator]
  · -- the loop goes over the letter, the next piece, and those before the last one
    obtain ⟨hc, hcs⟩ := List.forall_mem_cons.mp hcs
    have hcs' : ∀ d ∈ (c' :: cs).dropLast, IsComponent d :=
      fun d hd => hcs d ((List.dropLast_sublist _).subset hd)
    have hfirst : parentStep .win32 p default [X, ':'] = ofString .win32 [X, ':'] := by
      simp [parentStep, hdrive, default]
    have hsecond : parentStep .win32 p (ofString .win32 [X, ':']) c =
        (ofString .win32 [X, ':']).append .win32 (ofString .win32 c) := by
      simp [parentStep, hX.ofString_win32]
    obtain ⟨hon, hle⟩ := (onDrive_append_letter hX hc).foldl_parentStep (p := p) hcs'
    refine ⟨_, ?_, hon, .inr ?_⟩
    · simp [Path.parentPath, h.path_ne_nil, hv, hfirst, hsecond]
    · refine hle.trans_lt ?_
      rw [hc.append_win32, hX.ofString_win32, hv]
      split_ifs <;> simp <;> omega

/-! ## The ancestors -/

/-- Every ancestor is defined, absolute, and on the drive, and the root of the drive, which is its
own parent, is reached after at most as many steps as the path has components. -/
structure StaysOnDrive (X : Char) (p : Path) : Prop where
  ancestors : ∀ n, ∃ q, ancestorOn .win32 n p = some q ∧ q.isAbsolute .win32 = true ∧
    [X, ':', '\\'] <+: q.path
  reaches : ∃ n ≤ p.pathAsVector.length, ∃ q, ancestorOn .win32 n p = some q ∧
    q.path = [X, ':', '\\'] ∧ q.parentPath .win32 = some q

theorem OnDrive.exists_ancestorOn (hX : IsComponent [X, ':']) (h : OnDrive X p) (n : ℕ) :
    ∃ q, ancestorOn .win32 n p = some q ∧ OnDrive X q := by
  induction n generalizing p with
  | zero => exact ⟨p, rfl, h⟩
  | succ n ih =>
    obtain ⟨q, hq, hon, -⟩ := h.parentPath hX
    rw [ancestorOn, hq, Option.bind_some]
    exact ih hon

/-- Walking up ends at the root, by induction on the number of components. -/
theorem OnDrive.reaches_driveRoot (hX : IsComponent [X, ':']) (h : OnDrive X p) :
    ∃ n ≤ p.pathAsVector.length, ancestorOn .win32 n p = some (driveRoot X) := by
  induction hlen : p.pathAsVector.length using Nat.strong_induction_on generalizing p with
  | _ l ih =>
    subst hlen
    obtain ⟨cs, hv, -⟩ := h.exists_cons
    obtain ⟨q, hq, hon, rfl | hlt⟩ := h.parentPath hX
    · refine ⟨1, by simp [hv], ?_⟩
      rw [ancestorOn, hq, Option.bind_some, ancestorOn]
    · obtain ⟨n, hn, hroot⟩ := ih _ hlt hon rfl
      refine ⟨n + 1, by omega, ?_⟩
      rw [ancestorOn, hq, Option.bind_some, hroot]

theorem parentPath_driveRoot (hX : IsComponent [X, ':']) :
    (driveRoot X).parentPath .win32 = some (driveRoot X) := by
  obtain ⟨hroot, -, hv⟩ := onDrive_driveRoot hX
  obtain ⟨q, hq, hon, rfl | hlt⟩ := hroot.parentPath hX
  · exact hq
  · -- the root has one component, and its parent has one as well
    obtain ⟨cs, hqv, -⟩ := hon.exists_cons
    simp [hv, hqv] at hlt

/-- A string with a drive letter is a path on the drive. -/
theorem onDrive_ofString {s rest : StdString} (hX : X ≠ '\\')
    (h : (ofString .win32 s).path = X :: ':' :: '\\' :: rest) :
    IsComponent [X, ':'] ∧ OnDrive X (ofString .win32 s) := by
  have hnat : Native .win32 (ofString .win32 s).path := native_ofString s
  have hslash : '/' ∉ (ofString .win32 s).path := fun hmem =>
    absurd (hnat '/' hmem (.inr rfl)) (by decide)
  have hv : (ofString .win32 s).pathAsVector = tokens '\\' (ofString .win32 s).path :=
    split_eq_tokens _ _
  have hcomp : IsComponent [X, ':'] := by
    constructor
    · intro hmem
      apply hslash
      rw [h]
      exact List.mem_append_left ('\\' :: rest) hmem
    · simpa using hX.symm
  have htok : tokens '\\' (ofString .win32 s).path = [X, ':'] :: tokens '\\' rest := by
    rw [h]
    exact tokens_cons_of_notMem hcomp.backslash_notMem rest
  refine ⟨hcomp, ⟨rest, h.symm⟩, tokens '\\' rest, hv.trans htok, ?_⟩
  intro c hc
  have hmem : c ∈ tokens '\\' (ofString .win32 s).path := htok ▸ List.mem_cons_of_mem _ hc
  exact ⟨fun hs => hslash (mem_of_mem_tokens hmem hs), notMem_of_mem_tokens hmem⟩

/-- **Drive roots survive `parent_path`**, for every character in front of the colon but the
separator. -/
theorem staysOnDrive_ofString {X : Char} {s rest : StdString} (hX : X ≠ '\\')
    (h : (ofString .win32 s).path = X :: ':' :: '\\' :: rest) :
    StaysOnDrive X (ofString .win32 s) := by
  obtain ⟨hcomp, hon⟩ := onDrive_ofString hX h
  constructor
  · intro n
    obtain ⟨q, hq, hq'⟩ := hon.exists_ancestorOn hcomp n
    exact ⟨q, hq, hq'.isAbsolute, hq'.prefix_path⟩
  · obtain ⟨n, hn, hroot⟩ := hon.reaches_driveRoot hcomp
    obtain ⟨-, hpath, -⟩ := onDrive_driveRoot hcomp
    exact ⟨n, hn, driveRoot X, hroot, hpath, parentPath_driveRoot hcomp⟩

/-- Slashes and doubled separators. -/
theorem staysOnDrive_ofString_home :
    StaysOnDrive 'C' (ofString .win32 "C:/home//foo\\".toList) := by
  have h : (ofString .win32 "C:/home//foo\\".toList).path =
      'C' :: ':' :: '\\' :: "home\\\\foo\\".toList := by decide
  exact staysOnDrive_ofString (by decide) h

end Path

end RcppUtils
