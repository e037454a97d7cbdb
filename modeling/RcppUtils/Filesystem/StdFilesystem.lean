import RcppUtils.Path.Basic
import RcppUtils.Posix.Frontier

/-!
# `std::filesystem::create_directories`

The function of the standard library makes a directory and its missing ancestors. It is a
parameter of the programs that call it: a library is any function that does what is documented,
on the path's C string. One such library adds the missing directories one after the other.

## Main definitions

* `NamesDirectory`, `Absent`, `Created`: what a pathname names, and what creating it changes
* `StdFilesystem env`: the libraries that do what is documented
* `StdFilesystem.addMissing env`: the library that adds the missing directories

## Main results

* `created_addDirectories`: adding the missing directories creates the pathname
-/

namespace RcppUtils

open Posix

/-- The pathname names a directory. -/
def NamesDirectory (env : Env) (fs : FileSystem) (s : List Char) : Prop :=
  ∃ l, stat env fs s = .ok (l, .directory)

/-- The first names lead to a directory, and the others, at least one and none of them `.` or
`..`, are missing there. -/
def Absent (env : Env) (fs : FileSystem) (s : List Char) : Prop :=
  ∃ done rest d k, names s = done ++ rest ∧ rest ≠ [] ∧ (∀ n ∈ rest, n ≠ dot ∧ n ≠ dotdot) ∧
    Frontier fs env.symloopMax (env.start s) done rest d k

/-- From `fs` to `fs'` the pathname `s` is created with its missing ancestors: it named nothing,
it names a new directory, which is empty, and no other entries are new. -/
structure Created (env : Env) (fs fs' : FileSystem) (s : List Char) : Prop where
  absent : ∀ l, lstat env fs s ≠ .ok l
  grown : fs.Grown fs'
  directory : ∃ l, stat env fs' s = .ok (l, .directory) ∧ fs.kind l = none ∧ fs'.children l = []
  missing : ∀ l, fs.kind l = none → fs'.kind l ≠ none → IsMissingPrefix env fs fs' s l

/-- A function `create_directories` that returns true and creates the path when it is absent,
returns false and changes nothing when it is a directory, and throws otherwise. -/
structure StdFilesystem (env : Env) where
  createDirectories : StdString → FileSystem → Except String Bool × FileSystem
  of_absent {p fs} : Absent env fs (cStr p) → (createDirectories p fs).1 = .ok true
  of_directory {p fs} : NamesDirectory env fs (cStr p) → createDirectories p fs = (.ok false, fs)
  of_true {p fs} : (createDirectories p fs).1 = .ok true →
    Created env fs (createDirectories p fs).2 (cStr p)
  of_false {p fs} : (createDirectories p fs).1 = .ok false → NamesDirectory env fs (cStr p)

/-! ## Adding the missing directories -/

section Created

variable {env : Env} {fs : FileSystem} {s : List Char} {done rest : List Name} {d : Loc} {k : ℕ}

/-- The new directories are where the names behind the frontier lead. -/
theorem leads_addDirectories (h : Frontier fs env.symloopMax (env.start s) done rest d k)
    (hrest : ∀ n ∈ rest, IsName n) {r : List Name} (hp : r <+: rest) :
    Leads (fs.addDirectories d rest) env.symloopMax (env.start s) (done ++ r) (d ++ r) k := by
  induction r using List.reverseRecOn with
  | nil =>
    have hl := h.leads.of_le (FileSystem.grown_addDirectories d rest).le
    rwa [List.append_nil, List.append_nil]
  | append_singleton r n ih =>
    have hl := ih ((List.prefix_append r [n]).trans hp)
    have hname := hrest n (hp.subset (by simp))
    have hkind := FileSystem.kind_addDirectories h.leads.kind h.free hrest hp
    rw [← List.append_assoc] at hkind
    rw [← List.append_assoc, ← List.append_assoc]
    exact hl.concat hname.ne_dot hname.ne_dotdot hkind

/-- **Adding the missing directories creates the pathname.** -/
theorem created_addDirectories (h : Frontier fs env.symloopMax (env.start s) done rest d k)
    (hn : names s = done ++ rest) (hne : rest ≠ []) (hrest : ∀ n ∈ rest, IsName n) :
    Created env fs (fs.addDirectories d rest) s := by
  have hdots : ∀ n ∈ rest, n ≠ dot ∧ n ≠ dotdot := fun n hn =>
    ⟨(hrest n hn).ne_dot, (hrest n hn).ne_dotdot⟩
  have hgrown : fs.Grown (fs.addDirectories d rest) := FileSystem.grown_addDirectories d rest
  have hlead := leads_addDirectories h hrest List.prefix_rfl
  have hnone : fs.kind (d ++ rest) = none := h.kind_eq_none hne List.prefix_rfl
  have hs : s ≠ [] := by
    rintro rfl
    simp [hne] at hn
  rw [← hn] at hlead
  refine ⟨h.lstat_ne_ok hn hdots hne List.prefix_rfl, hgrown, ?_, ?_⟩
  · have hstat := (stat_directory_iff_leads hs).mpr ⟨k, hlead⟩
    exact ⟨d ++ rest, hstat, hnone, FileSystem.children_addDirectories hnone⟩
  · intro l hl hl'
    obtain ⟨r, hr, hp, rfl⟩ := FileSystem.exists_of_kind_addDirectories hl hl'
    exact h.isMissingPrefix_append hn hdots hgrown hlead hr hp

/-- A pathname that is absent names no directory. -/
theorem Absent.not_namesDirectory (h : Absent env fs s) : ¬ NamesDirectory env fs s := by
  obtain ⟨done, rest, d, k, hn, hne, hdots, hfrontier⟩ := h
  rintro ⟨l, hl⟩
  have hs : s ≠ [] := (stat_directory_iff.mp hl).1
  obtain ⟨j, hlead⟩ := (stat_directory_iff_leads hs).mp hl
  rw [hn] at hlead
  have hlead' := hfrontier.leads_prefix (refl fs) hdots List.prefix_rfl hlead
  simpa [hfrontier.kind_eq_none hne List.prefix_rfl] using hlead'.kind

end Created

/-! ## A library that keeps to the documentation -/

/-- The directory that the first of the names lead to, and the names that are left there. -/
def advance (fs : FileSystem) : ℕ → Loc → List Name → Loc × List Name
  | _, d, [] => (d, [])
  | k, d, n :: rest =>
    match walk fs k d [n] with
    | .ok (d', k') =>
      if fs.kind d' = some .directory then advance fs k' d' rest else (d, n :: rest)
    | .error _ => (d, n :: rest)

section Advance

variable {fs : FileSystem} {b k : ℕ} {cur d : Loc} {done : List Name}

theorem leads_advance (h : Leads fs b cur done d k) (rest : List Name) :
    ∃ done' k', done ++ rest = done' ++ (advance fs k d rest).2 ∧
      Leads fs b cur done' (advance fs k d rest).1 k' := by
  induction rest generalizing done d k with
  | nil => exact ⟨done, k, rfl, h⟩
  | cons n rest ih =>
    rw [advance]
    rcases hw : walk fs k d [n] with e | ⟨d', k'⟩
    · exact ⟨done, k, rfl, h⟩
    · by_cases hd : fs.kind d' = some .directory
      · have hnext : Leads fs b cur (done ++ [n]) d' k' := ⟨(h.walk_concat n).trans hw, hd⟩
        simpa [hd] using ih hnext
      · simp only [hd, if_false]
        exact ⟨done, k, rfl, h⟩

/-- Names lead on from a directory only. -/
theorem kind_of_advance {rest : List Name}
    (h : fs.kind (advance fs k d rest).1 = some .directory) : fs.kind d = some .directory := by
  cases rest with
  | nil => exact h
  | cons n rest =>
    rw [advance] at h
    rcases hw : walk fs k d [n] with e | r
    · simpa [hw] using h
    · obtain ⟨_, _, _, hop, -⟩ := Hop.of_walk hw
      cases hop <;> assumption

theorem advance_append (h : Leads fs b cur done d k) (rest : List Name) :
    advance fs b cur (done ++ rest) = advance fs k d rest := by
  induction done generalizing b cur with
  | nil =>
    obtain ⟨rfl, rfl⟩ := Prod.mk.inj (Except.ok.inj ((walk_nil b cur).symm.trans h.walk))
    rfl
  | cons n done ih =>
    -- the first name leads to a directory, and the others lead on from there
    have hfirst : [n] <+: n :: done := ⟨done, rfl⟩
    obtain ⟨d', k', hnext⟩ := h.of_prefix hfirst
    have hrest : Leads fs k' d' done d k :=
      ⟨(walk_append_of_ok hnext.walk done).symm.trans h.walk, h.kind⟩
    rw [List.cons_append, advance, hnext.walk]
    simpa [hnext.kind] using ih hrest

theorem advance_of_frontier {rest : List Name} (h : Frontier fs b cur done rest d k)
    (hdots : ∀ n ∈ rest, n ≠ dot ∧ n ≠ dotdot) :
    advance fs b cur (done ++ rest) = (d, rest) := by
  rw [advance_append h.leads]
  cases rest with
  | nil => rfl
  | cons n rest =>
    rw [advance]
    rcases hw : walk fs k d [n] with e | r
    · rfl
    · obtain ⟨hd, hdd⟩ := hdots n (by simp)
      exact absurd (h.free n (by simp)) (kind_ne_none_of_walk hw hd hdd)

end Advance

instance (env : Env) (fs : FileSystem) (s : List Char) : Decidable (NamesDirectory env fs s) :=
  match h : stat env fs s with
  | .ok (l, .directory) => isTrue ⟨l, h⟩
  | .ok (_, .regular) | .ok (_, .symlink _) | .error _ => isFalse (by simp [NamesDirectory, h])

/-- The names `rest` can be added in the directory `d`. -/
abbrev Addable (fs : FileSystem) (d : Loc) (rest : List Name) : Prop :=
  fs.kind d = some .directory ∧ rest ≠ [] ∧ (∀ n ∈ rest, IsName n) ∧
    ∀ n ∈ rest.head?, fs.kind (d ++ [n]) = none

/-- Adding the missing directories behind the last directory that exists. -/
def addMissing (env : Env) (p : StdString) (fs : FileSystem) : Except String Bool × FileSystem :=
  if NamesDirectory env fs (cStr p) then (.ok false, fs)
  else
    let r := advance fs env.symloopMax (env.start (cStr p)) (names (cStr p))
    if Addable fs r.1 r.2 then (.ok true, fs.addDirectories r.1 r.2)
    else (.error "cannot create directories", fs)

section AddMissing

variable {env : Env} {fs : FileSystem} {p : StdString}

theorem addMissing_of_absent (h : Absent env fs (cStr p)) :
    (addMissing env p fs).1 = .ok true := by
  obtain ⟨done, rest, d, k, hn, hne, hdots, hfrontier⟩ := id h
  have hadv := advance_of_frontier hfrontier hdots
  have hrest : ∀ n ∈ rest, IsName n := fun n hm =>
    isName_of_mem_names (nul_notMem_cStr p) (by simp [hn, hm]) (hdots n hm).1 (hdots n hm).2
  have hadd : Addable fs d rest := ⟨hfrontier.leads.kind, hne, hrest, hfrontier.free⟩
  rw [addMissing, if_neg h.not_namesDirectory, hn]
  simp only [hadv, if_pos hadd]

theorem addMissing_of_namesDirectory (h : NamesDirectory env fs (cStr p)) :
    addMissing env p fs = (.ok false, fs) :=
  if_pos h

theorem namesDirectory_of_addMissing (h : (addMissing env p fs).1 = .ok false) :
    NamesDirectory env fs (cStr p) := by
  by_contra hne
  rw [addMissing, if_neg hne] at h
  dsimp only at h
  split_ifs at h
  cases h

theorem created_of_addMissing (h : (addMissing env p fs).1 = .ok true) :
    Created env fs (addMissing env p fs).2 (cStr p) := by
  unfold addMissing at h ⊢
  dsimp only at h ⊢
  split_ifs at h ⊢ with hdir hadd
  · cases h
  · obtain ⟨hkind, hne, hrest, hfree⟩ := hadd
    obtain ⟨done, k, hn, hlead⟩ :=
      leads_advance (leads_nil (kind_of_advance hkind)) (names (cStr p))
    exact created_addDirectories ⟨hlead, hfree⟩ hn hne hrest

end AddMissing

/-- **The library that adds the missing directories.** -/
def StdFilesystem.addMissing (env : Env) : StdFilesystem env where
  createDirectories := RcppUtils.addMissing env
  of_absent := addMissing_of_absent
  of_directory := addMissing_of_namesDirectory
  of_true := created_of_addMissing
  of_false := namesDirectory_of_addMissing

end RcppUtils
