import RcppUtils.Path.Coherent
import RcppUtils.Filesystem.Queries

/-!
# `create_directories`

The loop appends the components of a path one by one to an empty path and makes a directory of
each path built on the way. The calls only see the C strings of the built paths. Each of these
has the names of the one before, or one name more, so the built paths climb from the start of
the resolution through the names of the whole path.

## Main definitions

* `createDirectories`: the function on the POSIX build
* `built cs`: the C strings of the paths that the loop builds from the components `cs`
* `Climb`: pathnames that go through given names, one at a time

## Main results

* `createDirectories_eq`: the loop makes the built paths, one after the other
* `climb_built`: the built paths climb through the names of the path
-/

namespace RcppUtils

open Posix

/-- The path that the loop of `create_directories` builds next. -/
def nextBuilt (pBuilt : Path) (it : StdString) : Path :=
  if pBuilt.path ≠ [] ∨ it = [] then pBuilt.append .posix (Path.ofString .posix it)
  else Path.ofString .posix it

/-- The status after a directory was made of `pBuilt`, unless there is an entry. -/
def makeStatus (pBuilt : Path) : SysProgram ℤ := do
  if ← pBuilt.exists then return 0
  else
    match ← SysProgram.mkdir (cStr pBuilt.path) with
    | .ok _ => return 0
    | .error errno => return if errno = .eexist then 0 else -1

/-- The loop of `create_directories`: the path built last, and the status. -/
def createLoop : Path → List StdString → SysProgram (Path × ℤ)
  | pBuilt, [] => return (pBuilt, 0)
  | pBuilt, it :: its => do
    let status ← makeStatus (nextBuilt pBuilt it)
    if status = 0 then createLoop (nextBuilt pBuilt it) its
    else return (nextBuilt pBuilt it, status)

/-- `create_directories(p)`. -/
def createDirectories (p : Path) : SysProgram Bool := do
  let (pBuilt, status) ← createLoop default p.pathAsVector
  if status = 0 then pBuilt.isDirectory else return false

/-! ## The calls that are made -/

/-- `stat` and the test for a directory. -/
def testDirectory (u : List Char) : SysProgram Bool :=
  .call (.stat u) fun
    | .error _ => .ret false
    | .ok kind => .ret (kind = .directory)

/-- The calls of `create_directories`: a directory is made of each of the pathnames, up to the
first failure, and the last is tested at the end. -/
def makeAll : List Char → List (List Char) → SysProgram Bool
  | last, [] => testDirectory last
  | _, u :: us =>
    .call (.access u) fun
      | .ok _ => makeAll u us
      | .error _ => .call (.mkdir u) fun
        | .ok _ => makeAll u us
        | .error errno => if errno = .eexist then makeAll u us else .ret false

/-- The C strings of the paths that the loop builds on `pBuilt`. -/
def builtFrom : Path → List StdString → List (List Char)
  | _, [] => []
  | pBuilt, it :: its => cStr (nextBuilt pBuilt it).path :: builtFrom (nextBuilt pBuilt it) its

/-- The C strings of the paths that the loop builds. -/
abbrev built (cs : List StdString) : List (List Char) := builtFrom default cs

theorem createLoop_bind (pBuilt : Path) (its : List StdString) :
    (createLoop pBuilt its >>= fun r => if r.2 = 0 then r.1.isDirectory else pure false) =
      makeAll (cStr pBuilt.path) (builtFrom pBuilt its) := by
  induction its generalizing pBuilt with
  | nil =>
    refine congrArg (Program.call _) (funext ?_)
    intro rc
    cases rc <;> rfl
  | cons it its ih =>
    -- the calls are the same; what follows each reply is compared
    refine congrArg (Program.call _) (funext ?_)
    intro rc
    cases rc with
    | ok _ => exact ih (nextBuilt pBuilt it)
    | error _ =>
      refine congrArg (Program.call _) (funext ?_)
      intro rc
      cases rc with
      | ok _ => exact ih (nextBuilt pBuilt it)
      | error errno =>
        cases errno with
        | eexist => exact ih (nextBuilt pBuilt it)
        | _ => rfl

/-- **The loop makes the built paths, one after the other.** -/
theorem createDirectories_eq (p : Path) :
    createDirectories p = makeAll [] (built p.pathAsVector) :=
  createLoop_bind default p.pathAsVector

/-! ## The names of components -/

/-- The names that components have as a C string: those up to the first null. -/
def componentNames : List StdString → List Name
  | [] => []
  | c :: cs =>
    (if cStr c = [] then [] else [cStr c]) ++ if nul ∈ c then [] else componentNames cs

theorem slash_notMem_cStr {c : StdString} (h : '/' ∉ c) : '/' ∉ cStr c :=
  fun hc => h (mem_of_mem_cStr hc)

theorem cStr_slash_cons (s : StdString) : cStr ('/' :: s) = '/' :: cStr s := by
  simp [cStr, nul_ne_slash.symm]

theorem names_cStr_intercalate {cs : List StdString} (hcs : ∀ c ∈ cs, '/' ∉ c) :
    names (cStr (['/'].intercalate cs)) = componentNames cs := by
  induction cs with
  | nil => simp [cStr, componentNames]
  | cons c cs ih =>
    obtain ⟨hc, hcs⟩ := List.forall_mem_cons.mp hcs
    have hname := names_of_slash_notMem (slash_notMem_cStr hc)
    cases cs with
    | nil => simp [componentNames, hname]
    | cons c' cs =>
      have hsplit : ['/'].intercalate (c :: c' :: cs) =
          c ++ '/' :: ['/'].intercalate (c' :: cs) := by
        simp [List.intercalate_cons_cons]
      rw [hsplit, componentNames]
      by_cases hn : nul ∈ c
      · rw [cStr_append_of_mem hn, if_pos hn, hname, List.append_nil]
      · rw [cStr_append_of_notMem hn, cStr_slash_cons, names_append_slash, ih hcs, if_neg hn]
        rw [cStr_of_nul_notMem hn] at hname ⊢
        rw [hname]

theorem componentNames_concat_nil (cs : List StdString) :
    componentNames (cs ++ [[]]) = componentNames cs := by
  induction cs with
  | nil => simp [componentNames, cStr]
  | cons c cs ih => rw [List.cons_append, componentNames, componentNames, ih]

/-- The names of a pathname are those of its components. -/
theorem names_cStr (s : StdString) : names (cStr s) = componentNames (tokens '/' s) := by
  have hs : ['/'].intercalate (s.splitOn '/') = s := List.intercalate_splitOn _
  have hcs : ∀ c ∈ s.splitOn '/', '/' ∉ c := fun c hc => (mem_of_mem_splitOn hc).1
  -- the pieces are the tokens, and perhaps an empty piece that has no name
  conv_lhs => rw [← hs, names_cStr_intercalate hcs, splitOn_eq_tokens]
  split_ifs
  · exact componentNames_concat_nil _
  · rw [List.append_nil]

/-! ## The built paths -/

/-- `u` is a pathname with the names `ns`, absolute or relative as `a` says. -/
structure Spells (a : Bool) (ns : List Name) (u : List Char) : Prop where
  ne_nil : u ≠ []
  absolute : (Pathname.parse u).absolute = a
  names : Posix.names u = ns

/-- The pathnames go on from the names `N` through the names `ns`, at most one name at a time. -/
inductive Climb (a : Bool) : List Name → List Name → List (List Char) → Prop
  | done {N} : Climb a N [] []
  | stay {N ns u us} (hu : Spells a N u) (h : Climb a N ns us) : Climb a N ns (u :: us)
  | up {N n ns u us} (hu : Spells a (N ++ [n]) u) (h : Climb a (N ++ [n]) ns us) :
    Climb a N (n :: ns) (u :: us)

theorem Climb.cons {a : Bool} {N ns : List Name} {c : StdString} {u : List Char}
    {us : List (List Char)} (hu : Spells a (N ++ if cStr c = [] then [] else [cStr c]) u)
    (h : Climb a (N ++ if cStr c = [] then [] else [cStr c]) ns us) :
    Climb a N ((if cStr c = [] then [] else [cStr c]) ++ ns) (u :: us) := by
  split_ifs at hu h ⊢
  · rw [List.append_nil] at hu h
    exact .stay hu h
  · exact .up hu h

theorem nextBuilt_path_of_ne_nil {p : Path} (hp : p.path ≠ []) {c : StdString}
    (hc : Path.IsComponent c) :
    (nextBuilt p c).path = Path.withSeparator .posix p.path ++ c := by
  have hof := Path.ofString_component hc.slash_notMem hc.backslash_notMem
  rw [nextBuilt, if_pos (.inl hp), Path.append_of_not_isAbsolute hc.isAbsolute, hof]

theorem nextBuilt_default {c : StdString} (hc : Path.IsComponent c) :
    (nextBuilt default c).path = if c = [] then ['/'] else c := by
  by_cases h : c = []
  · subst h
    rfl
  · have hof := Path.ofString_component hc.slash_notMem hc.backslash_notMem
    simp [nextBuilt, h, hof, default]

theorem head?_cStr {s : StdString} (h : cStr s ≠ []) : (cStr s).head? = s.head? := by
  cases s with
  | nil => rfl
  | cons c s =>
    by_cases hc : c = nul
    · simp [cStr, hc] at h
    · simp [cStr, hc]

/-- One more component: one more name, unless the component is empty or a null came before. -/
theorem spells_nextBuilt {a : Bool} {N : List Name} {p : Path} (hp : Spells a N (cStr p.path))
    {c : StdString} (hc : Path.IsComponent c) :
    Spells a (N ++ if nul ∈ p.path ∨ cStr c = [] then [] else [cStr c])
      (cStr (nextBuilt p c).path) := by
  have hpath : p.path ≠ [] := fun h => hp.ne_nil (by simp [h, cStr])
  rw [nextBuilt_path_of_ne_nil hpath hc]
  by_cases hn : nul ∈ p.path
  · -- everything after the null is cut off
    have hcut : cStr (Path.withSeparator .posix p.path) = cStr p.path := by
      rw [Path.withSeparator_of_ne_nil hpath]
      split_ifs
      · rfl
      · exact cStr_append_of_mem hn _
    rw [cStr_append_of_mem (nul_mem_withSeparator.mpr hn), hcut]
    simpa [hn] using hp
  · rw [cStr_append_of_notMem (mt nul_mem_withSeparator.mp hn)]
    obtain ⟨-, ha, hN⟩ := hp
    rw [cStr_of_nul_notMem hn] at ha hN
    have hhead := Path.head?_withSeparator hpath (cStr c)
    refine ⟨?_, ?_, ?_⟩
    · intro h
      rw [h] at hhead
      exact hpath (List.head?_eq_none_iff.mp hhead.symm)
    · simpa [Pathname.parse, hhead] using ha
    · rw [names_withSeparator_append hpath, hN,
        names_of_slash_notMem (slash_notMem_cStr hc.slash_notMem)]
      simp [hn]

/-- The paths built on `p` climb through the names of the components, up to the first null. -/
theorem climb_builtFrom {a : Bool} {N : List Name} {p : Path} (hp : Spells a N (cStr p.path))
    {cs : List StdString} (hcs : ∀ c ∈ cs, Path.IsComponent c) :
    Climb a N (if nul ∈ p.path then [] else componentNames cs) (builtFrom p cs) := by
  induction cs generalizing N p with
  | nil => simpa [componentNames, builtFrom] using Climb.done
  | cons c cs ih =>
    obtain ⟨hc, hcs⟩ := List.forall_mem_cons.mp hcs
    have hpath : p.path ≠ [] := fun h => hp.ne_nil (by simp [h, cStr])
    have hnext := spells_nextBuilt hp hc
    have hclimb := ih hnext hcs
    have hnul : nul ∈ (nextBuilt p c).path ↔ nul ∈ p.path ∨ nul ∈ c := by
      rw [nextBuilt_path_of_ne_nil hpath hc, List.mem_append, nul_mem_withSeparator]
    rw [builtFrom, componentNames]
    -- once there is a null, the C string stays as it is
    by_cases hn : nul ∈ p.path
    · simp only [hnul, hn, true_or, if_true, List.append_nil] at hnext hclimb ⊢
      exact .stay hnext hclimb
    · simp only [hnul, hn, false_or, if_false] at hnext hclimb ⊢
      exact .cons hnext hclimb

/-- From a first component that is not empty, the built paths are relative. -/
theorem climb_built_of_relative {c : StdString} {cs : List StdString} (hc : Path.IsComponent c)
    (hcs : ∀ c ∈ cs, Path.IsComponent c) (hne : cStr c ≠ []) :
    Climb false [] (componentNames (c :: cs)) (built (c :: cs)) := by
  have hnil : c ≠ [] := fun h => hne (by simp [h, cStr])
  have hnext := nextBuilt_default hc
  have hpiece : Spells false [cStr c] (cStr (nextBuilt default c).path) := by
    rw [hnext, if_neg hnil]
    have hslash := slash_notMem_cStr hc.slash_notMem
    refine ⟨hne, ?_, by simp [names_of_slash_notMem hslash, hne]⟩
    simpa [Pathname.parse] using fun h => hslash (List.mem_of_mem_head? h)
  have hclimb := climb_builtFrom hpiece hcs
  rw [hnext, if_neg hnil] at hclimb
  rw [componentNames, if_neg hne]
  exact Climb.up (N := []) hpiece hclimb

/-- **The built paths climb through the names of the path**, when its C string is not empty. -/
theorem climb_built {p : Path} (hp : p.Coherent) (ht : cStr p.path ≠ []) :
    Climb (Pathname.parse (cStr p.path)).absolute [] (names (cStr p.path))
      (built p.pathAsVector) := by
  have hcomp : ∀ c ∈ p.pathAsVector, Path.IsComponent c := fun c hc => hp.isComponent hc
  have hnames : names (cStr p.path) = componentNames p.pathAsVector := by
    rw [names_cStr, hp.pathAsVector_eq]
  have hfirst : p.pathAsVector.head? = some [] ↔ p.path.head? = some '/' := by
    rw [hp.pathAsVector_eq, head?_tokens]
  rw [hnames, Pathname.parse, head?_cStr ht]
  cases hv : p.pathAsVector with
  | nil =>
    rw [hp.pathAsVector_eq_nil] at hv
    simp [hv, cStr] at ht
  | cons c cs =>
    rw [hv] at hcomp hfirst
    obtain ⟨hc, hcs⟩ := List.forall_mem_cons.mp hcomp
    have hnext := nextBuilt_default hc
    by_cases hnil : c = []
    · -- the root comes first
      subst hnil
      have hhead := hfirst.mp rfl
      have hroot : Spells true [] (cStr (nextBuilt default []).path) := by
        rw [hnext, if_pos rfl]
        exact ⟨by decide, by decide, by decide⟩
      -- the other paths are built on the root
      have hclimb := climb_builtFrom hroot hcs
      rw [hnext, if_pos rfl, if_neg (by decide)] at hclimb
      have hstay := Climb.stay hroot hclimb
      simpa [hhead, componentNames, cStr, builtFrom] using hstay
    · have hhead : p.path.head? ≠ some '/' := fun h => hnil (by simpa using hfirst.mpr h)
      -- a null in front would leave no name of the relative path
      have hne : cStr c ≠ [] := by
        intro hcs0
        have hnul : nul ∈ c := by
          by_contra hn
          exact hnil (cStr_of_nul_notMem hn ▸ hcs0)
        have hnone : names (cStr p.path) = [] := by
          rw [hnames, hv, componentNames, if_pos hcs0, if_pos hnul, List.append_nil]
        exact names_ne_nil ht (by rwa [head?_cStr ht]) hnone
      have hup := climb_built_of_relative hc hcs hne
      have hrel : (p.path.head? == some '/') = false := by simpa using hhead
      simpa [hrel] using hup

/-- Without a C string there is no built path, or the first has no C string. -/
theorem built_of_cStr_eq_nil {p : Path} (hp : p.Coherent) (ht : cStr p.path = []) :
    built p.pathAsVector = [] ∨ ∃ us, built p.pathAsVector = [] :: us := by
  cases hv : p.pathAsVector with
  | nil => exact .inl rfl
  | cons c cs =>
    have hc : Path.IsComponent c := hp.isComponent (by simp [hv])
    have hnil : c ≠ [] := by
      rintro rfl
      have hhead : p.path.head? = some '/' := by
        rw [← head?_tokens, ← hp.pathAsVector_eq, hv, List.head?_cons]
      obtain ⟨s, hs⟩ := List.head?_eq_some_iff.mp hhead
      rw [hs, cStr_slash_cons] at ht
      cases ht
    have hnone : componentNames (c :: cs) = [] := by
      rw [← hv, hp.pathAsVector_eq, ← names_cStr, ht, names_nil]
    refine .inr ⟨builtFrom (nextBuilt default c) cs, ?_⟩
    rw [built, builtFrom, nextBuilt_default hc, if_neg hnil]
    by_cases hcs : cStr c = []
    · rw [hcs]
    · simp [componentNames, hcs] at hnone

theorem built_ne_nil {p : Path} (hp : p.Coherent) (ht : cStr p.path ≠ []) :
    built p.pathAsVector ≠ [] := by
  cases hv : p.pathAsVector with
  | nil =>
    rw [hp.pathAsVector_eq_nil] at hv
    simp [hv, cStr] at ht
  | cons c cs => exact List.cons_ne_nil _ _

/-- The C string of a relative path is relative. -/
theorem absolute_cStr {p : Path} (habs : p.isAbsolute .posix = false) :
    (Pathname.parse (cStr p.path)).absolute = false := by
  by_cases h : cStr p.path = []
  · simp [h, Pathname.parse]
  · simpa [Pathname.parse, head?_cStr h] using Path.isAbsolute_eq_false_iff.mp habs

/-- The C string of an absolute path is absolute. -/
theorem absolute_cStr_of_isAbsolute {p : Path} (habs : p.isAbsolute .posix = true) :
    cStr p.path ≠ [] ∧ (Pathname.parse (cStr p.path)).absolute = true := by
  have hhead := Path.isAbsolute_iff.mp habs
  have ht : cStr p.path ≠ [] := by
    obtain ⟨s, hs⟩ := List.head?_eq_some_iff.mp hhead
    rw [hs, cStr_slash_cons]
    exact List.cons_ne_nil _ _
  exact ⟨ht, by simp [Pathname.parse, head?_cStr ht, hhead]⟩

/-- The built paths are relative when the first component is not empty. -/
theorem absolute_builtFrom {p : Path} (hp : p.path ≠ []) (habs : p.isAbsolute .posix = false)
    {cs : List StdString} (hcs : ∀ c ∈ cs, Path.IsComponent c) :
    ∀ u ∈ builtFrom p cs, (Pathname.parse u).absolute = false := by
  induction cs generalizing p with
  | nil => simp [builtFrom]
  | cons c cs ih =>
    obtain ⟨hc, hcs⟩ := List.forall_mem_cons.mp hcs
    have hnext : nextBuilt p c = p.append .posix (Path.ofString .posix c) := by
      rw [nextBuilt, if_pos (.inl hp)]
    have hrel : (nextBuilt p c).isAbsolute .posix = false := by
      rw [hnext, Path.isAbsolute_append hp, habs, hc.isAbsolute, Bool.or_false]
    have hne : (nextBuilt p c).path ≠ [] := by
      rw [hnext]
      exact Path.append_path_ne_nil hp hc.isAbsolute
    refine List.forall_mem_cons.mpr ⟨?_, ih hne hrel hcs⟩
    exact absolute_cStr hrel

end RcppUtils
