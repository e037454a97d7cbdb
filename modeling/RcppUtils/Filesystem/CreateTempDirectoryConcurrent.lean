import RcppUtils.Filesystem.CreateTempDirectory

/-!
# `create_temp_directory` among other callers

Each caller makes the directories of its parent, call by call, and then has `mkdtemp` make the
directory, which is one step: the last `mkdir` of `mkdtemp` succeeds only where nothing is. So the
directory that a caller returns was not there before, and no other caller returns it. The parents
are made as by callers of `create_directories`, since the new directories of the others do not
stand in the way.

## Main definitions

* `createTempDirectoryCalls`: the function as a program of its calls
* `MadeBy`: the directory that a caller has returned
* `MakeSeparateDirectories`: what a pool of callers returns and changes

## Main results

* `run_createTempDirectoryCalls`: the program run alone is the function
* `Separate.step`: what one step of the pool preserves
* `createTempDirectory_concurrent`: the callers make separate directories
-/

namespace RcppUtils

open Posix Program

/-- The calls of `create_temp_directory`: those of `create_directories`, and `mkdtemp`. -/
inductive MkdtempCall
  | sys (op : SysCall)
  | mkdtemp (template : StdString)

/-- What each call returns; a null pointer is `none`. -/
def MkdtempCall.Reply : MkdtempCall → Type
  | .sys op => op.Reply
  | .mkdtemp _ => Option StdString

/-- Programs that make these calls. -/
abbrev MkdtempProgram := Program MkdtempCall MkdtempCall.Reply

/-- The call of `create_directories` on the way. -/
def asMkdtempProgram {α : Type} (p : SysProgram α) : MkdtempProgram α :=
  p.lift MkdtempCall.sys fun _ r => r

/-- What follows when `create_directories` has returned. -/
def makeTempDirectory (fullTemplateStr : StdString) :
    Bool → MkdtempProgram (Except StdException Path)
  | false => .ret (.error (.systemError "could not create the parent directory"))
  | true => .call (.mkdtemp (cStr fullTemplateStr)) fun
    | none => .ret (.error (.systemError "could not format or create the temp directory"))
    | some dirName => .ret (.ok (.ofString .posix dirName))

/-- `create_temp_directory(base_name, parent_path)`, call by call. -/
def createTempDirectoryCalls (baseName : StdString) (parentPath : Path) :
    MkdtempProgram (Except StdException Path) :=
  asMkdtempProgram (createDirectories parentPath) >>=
    makeTempDirectory (fullTemplateStr baseName parentPath)

/-- **The meaning of the calls.** -/
def mkdtempHandler {env : Env} (lib : Mkdtemp env) : Handler MkdtempCall MkdtempCall.Reply World
  | .sys op, w => handler env op w
  | .mkdtemp template, w =>
    match lib.mkdtemp template w.fs with
    | none => (none, w)
    | some (dirName, fs) => (some dirName, { w with fs := fs })

theorem mkdtempHandler_of_none {env : Env} {lib : Mkdtemp env} {template : StdString} {w : World}
    (h : lib.mkdtemp template w.fs = none) :
    mkdtempHandler lib (.mkdtemp template) w = (none, w) := by
  simp only [mkdtempHandler, h]
  rfl

theorem mkdtempHandler_of_some {env : Env} {lib : Mkdtemp env} {template dirName : StdString}
    {w : World} {fs' : FileSystem} (h : lib.mkdtemp template w.fs = some (dirName, fs')) :
    mkdtempHandler lib (.mkdtemp template) w = (some dirName, { w with fs := fs' }) := by
  simp only [mkdtempHandler, h]
  rfl

theorem run_asMkdtempProgram {α : Type} {env : Env} (lib : Mkdtemp env) (p : SysProgram α)
    (w : World) : (asMkdtempProgram p).run (mkdtempHandler lib) w = p.run (handler env) w := by
  rw [asMkdtempProgram]
  apply run_lift
  intro op w
  exact ⟨rfl, rfl⟩

/-- The program run alone is the function. -/
theorem run_createTempDirectoryCalls {env : Env} (lib : Mkdtemp env) (baseName : StdString)
    (parentPath : Path) (w : World) :
    (createTempDirectoryCalls baseName parentPath).run (mkdtempHandler lib) w =
      createTempDirectory lib baseName parentPath w := by
  rw [createTempDirectoryCalls, run_bind, run_asMkdtempProgram, createTempDirectory]
  rcases (createDirectories parentPath).run (handler env) w with ⟨_ | _, w'⟩
  · rfl
  · dsimp only
    rw [makeTempDirectory, run_call, mkdtempHandler]
    cases lib.mkdtemp (cStr (fullTemplateStr baseName parentPath)) w'.fs <;> rfl

/-! ## The new directory -/

section NewDirectory

variable {env : Env} {lib : Mkdtemp env} {fs fs' : FileSystem} {template dirName : StdString}

/-- Where `mkdtemp` makes a directory. -/
theorem exists_leads_of_mkdtemp (h : lib.mkdtemp template fs = some (dirName, fs'))
    (ht : nul ∉ template) :
    ∃ ns n d k, dirName ≠ [] ∧ names dirName = ns ++ [n] ∧ IsName n ∧
      Leads fs env.symloopMax (env.start dirName) ns d k ∧ fs.kind (d ++ [n]) = none ∧
      fs' = fs.addDirectory d n := by
  obtain ⟨stem, suffix, rfl, rfl, -, -, hnul, hmkdir⟩ := lib.of_some h
  have hdir : nul ∉ stem ++ suffix := by
    rw [List.mem_append, not_or] at ht ⊢
    exact ⟨ht.1, hnul⟩
  obtain ⟨ns, n, d, k, hne, hn, hd, hdd, hw, hkind, hnone, rfl⟩ := mkdir_eq_ok hmkdir
  have hname : IsName n := isName_of_mem_names hdir (by simp [hn]) hd hdd
  exact ⟨ns, n, d, k, hne, hn, hname, ⟨hw, hkind⟩, hnone, rfl⟩

/-- The pathname of a new directory names it. -/
theorem lstat_addDirectory {u : List Char} {ns : List Name} {n : Name} {d : Loc} {k : ℕ}
    (hu : u ≠ []) (hns : names u = ns ++ [n]) (hn : IsName n)
    (hlead : Leads fs env.symloopMax (env.start u) ns d k) (hnone : fs.kind (d ++ [n]) = none) :
    lstat env (fs.addDirectory d n) u = .ok (d ++ [n]) := by
  have hlead' := hlead.of_le (FileSystem.grown_addDirectory d n).le
  rw [lstat_of_leads hu hns hn.ne_dot hn.ne_dotdot hlead',
    FileSystem.kind_addDirectory hlead.kind hnone hn, if_pos rfl, if_neg (Option.some_ne_none _)]

/-- What `mkdtemp` makes: one directory, where nothing was. -/
theorem exists_of_mkdtemp (h : lib.mkdtemp template fs = some (dirName, fs'))
    (ht : nul ∉ template) :
    fs.Grown fs' ∧ ∃ l, lstat env fs' dirName = .ok l ∧ fs.kind l = none ∧
      fs'.kind l = some .directory ∧ ∀ m, fs.kind m = none → fs'.kind m ≠ none → m = l := by
  obtain ⟨ns, n, d, k, hne, hns, hn, hlead, hnone, rfl⟩ := exists_leads_of_mkdtemp h ht
  have hadd := FileSystem.kind_addDirectory hlead.kind hnone hn
  refine ⟨FileSystem.grown_addDirectory d n, d ++ [n],
    lstat_addDirectory hne hns hn hlead hnone, hnone, ?_, ?_⟩
  · rw [hadd, if_pos rfl]
  · intro m hm hm'
    rw [hadd] at hm'
    split_ifs at hm' with he
    · exact he
    · exact absurd hm hm'

/-- The path that is returned has the string of the directory, if `mkdtemp` adds no backslash. -/
theorem ofString_path_of_mkdtemp
    (hback : ∀ t fs dirName fs', lib.mkdtemp t fs = some (dirName, fs') → '\\' ∈ dirName → '\\' ∈ t)
    (ht : '\\' ∉ template) (h : lib.mkdtemp (cStr template) fs = some (dirName, fs')) :
    (Path.ofString .posix dirName).path = dirName := by
  rw [Path.ofString_path, Path.stdReplace_of_notMem]
  exact fun hmem => ht (mem_of_mem_cStr (hback _ _ _ _ h hmem))

end NewDirectory

theorem Adds.mono {A B : Set Loc} {w w' : World} (h : Adds A w w') (hAB : A ⊆ B) : Adds B w w' :=
  ⟨h.grown, fun l hl hl' => hAB (h.mem l hl hl')⟩

/-! ## One caller -/

section Caller

/-- Where a caller with a parent `s` is in the state `w'`, when the callers have made the
directories in `M` since `w`: it is on the way to its parent, whatever else the others make, or it
has returned. -/
inductive Caller (env : Env) (s template : StdString) (A M : Set Loc) (w w' : World) :
    MkdtempProgram (Except StdException Path) → Prop
  | running (q : SysProgram Bool)
      (hq : ∀ B, M ⊆ B → Meets (handler env) (Adds (A ∪ B))
        (Arrives env (env.start (pathname s)) (names (pathname s))) q w') :
      Caller env s template A M w w' (asMkdtempProgram q >>= makeTempDirectory template)
  | returned {p l} (hparent : Arrives env (env.start (pathname s)) (names (pathname s)) true w')
      (hp : lstat env w'.fs p.path = .ok l) (hold : w.fs.kind l = none)
      (hnew : w'.fs.kind l = some .directory) : Caller env s template A M w w' (.ret (.ok p))
  | failed (hparent : Arrives env (env.start (pathname s)) (names (pathname s)) true w') :
      Caller env s template A M w w'
        (.ret (.error (.systemError "could not format or create the temp directory")))

variable {env : Env} {s template : StdString} {A M M' : Set Loc} {w w' w'' : World}
  {p : MkdtempProgram (Except StdException Path)}

theorem Arrives.of_le {cur : Loc} {T : List Name} {b : Bool} (h : Arrives env cur T b w)
    (hle : w.fs ≤ w'.fs) : Arrives env cur T b w' := by
  obtain ⟨rfl, l, k, hlead⟩ := h
  exact ⟨rfl, l, k, hlead.of_le hle⟩

/-- A caller stays where it is when the others make directories. -/
theorem Caller.stable (h : Caller env s template A M w w' p) (hM : M ⊆ M')
    (hadds : Adds (A ∪ M') w' w'') : Caller env s template A M' w w'' p := by
  have hle := hadds.grown.le
  cases h with
  | running q hq =>
    refine .running q fun B hB => (hq B (hM.trans hB)).stable (hadds.mono ?_)
    exact Set.union_subset_union_right A hB
  | returned hparent hp hold hnew =>
    exact .returned (hparent.of_le hle) (lstat_of_le hle hp) hold (hle _ _ hnew)
  | failed hparent => exact .failed (hparent.of_le hle)

/-- On the way to its parent a caller has not returned a directory. -/
theorem ne_ret_ok (q : SysProgram Bool) (path : Path) :
    asMkdtempProgram q >>= makeTempDirectory template ≠ .ret (.ok path) := by
  intro h
  rcases q with (_ | _) | ⟨op, k⟩ <;> cases h

theorem Caller.of_ok {path : Path} (h : Caller env s template A M w w' (.ret (.ok path))) :
    ∃ l, lstat env w'.fs path.path = .ok l ∧ w.fs.kind l = none ∧
      w'.fs.kind l = some .directory := by
  generalize hp : Program.ret (Except.ok path) = q at h
  cases h with
  | running q hq => exact absurd hp.symm (ne_ret_ok q path)
  | returned hparent hl hold hnew =>
    cases hp
    exact ⟨_, hl, hold, hnew⟩
  | failed => cases hp

end Caller

/-! ## All callers together -/

section Pool

variable {ι : Type} [DecidableEq ι] {env : ι → Env} {lib : ∀ i, Mkdtemp (env i)}
  {s template : ι → StdString} {A : Set Loc} {w : World}
  {c c' : (ι → MkdtempProgram (Except StdException Path)) × World}

/-- The caller `i` has returned a path that names the directory `l`. -/
def MadeBy (env : ι → Env) (c : (ι → MkdtempProgram (Except StdException Path)) × World) (i : ι)
    (l : Loc) : Prop :=
  ∃ p, c.1 i = .ret (.ok p) ∧ lstat (env i) c.2.fs p.path = .ok l

/-- The directories that the callers have returned. -/
def made (env : ι → Env) (c : (ι → MkdtempProgram (Except StdException Path)) × World) :
    Set Loc :=
  {l | ∃ i, MadeBy env c i l}

/-- What holds of the callers of a pool since `w`. -/
structure Separate (env : ι → Env) (s template : ι → StdString) (A : Set Loc) (w : World)
    (c : (ι → MkdtempProgram (Except StdException Path)) × World) : Prop where
  adds : Adds (A ∪ made env c) w c.2
  caller : ∀ i, Caller (env i) (s i) (template i) A (made env c) w c.2 (c.1 i)
  separate : ∀ {i j l}, MadeBy env c i l → MadeBy env c j l → i = j

section Update

variable {ps : ι → MkdtempProgram (Except StdException Path)} {v v' : World} {i : ι}
  {op : MkdtempCall} {k : op.Reply → MkdtempProgram (Except StdException Path)}
  {p : MkdtempProgram (Except StdException Path)}

variable (env) in
/-- A step keeps the directories that were returned. -/
theorem made_subset (hi : ps i = .call op k) (hle : v.fs ≤ v'.fs) :
    made env (ps, v) ⊆ made env (Function.update ps i p, v') := by
  rintro l ⟨j, path, hj, hl⟩
  have hne : j ≠ i := by
    rintro rfl
    cases hj.symm.trans hi
  exact ⟨j, path, (Function.update_of_ne hne _ _).trans hj, lstat_of_le hle hl⟩

/-- The step of one caller keeps what holds of the pool, if it makes what this caller may make. -/
theorem Separate.update (h : Separate env s template A w (ps, v)) (hi : ps i = .call op k)
    (hadds : Adds (A ∪ made env (Function.update ps i p, v')) v v')
    (hcaller : Caller (env i) (s i) (template i) A (made env (Function.update ps i p, v')) w v' p)
    (hfresh : ∀ l, MadeBy env (Function.update ps i p, v') i l → v.fs.kind l = none) :
    Separate env s template A w (Function.update ps i p, v') := by
  have hle := hadds.grown.le
  have hsub : made env (ps, v) ⊆ made env (Function.update ps i p, v') := made_subset env hi hle
  -- what another caller has returned, it had returned before
  have hother : ∀ {j l}, j ≠ i → MadeBy env (Function.update ps i p, v') j l →
      MadeBy env (ps, v) j l ∧ v.fs.kind l ≠ none := by
    rintro j l hne ⟨path, hj, hl⟩
    have hj' : ps j = .ret (.ok path) := (Function.update_of_ne hne _ _).symm.trans hj
    have hcaller := h.caller j
    dsimp only at hcaller
    rw [hj'] at hcaller
    obtain ⟨l', hl', -, hnew⟩ := hcaller.of_ok
    obtain rfl : l' = l := Except.ok.inj ((lstat_of_le hle hl').symm.trans hl)
    exact ⟨⟨path, hj', hl'⟩, by simp [hnew]⟩
  constructor
  · exact IsTrans.trans _ _ _ (h.adds.mono (Set.union_subset_union_right A hsub)) hadds
  · intro j
    by_cases hj : j = i
    · subst hj
      simpa using hcaller
    · simpa [Function.update_of_ne hj] using (h.caller j).stable hsub hadds
  · intro a b l ha hb
    by_cases hai : a = i
    · by_cases hbi : b = i
      · rw [hai, hbi]
      · subst hai
        exact absurd (hfresh l ha) (hother hbi hb).2
    · by_cases hbi : b = i
      · subst hbi
        exact absurd (hfresh l hb) (hother hai ha).2
      · exact h.separate (hother hai ha).1 (hother hbi hb).1

/-- The step with which a caller returns its directory. -/
theorem Separate.update_returned {dirName : StdString} {fs' : FileSystem}
    (hback : ∀ i t fs dirName fs', (lib i).mkdtemp t fs = some (dirName, fs') →
      '\\' ∈ dirName → '\\' ∈ t)
    (ht : ∀ i, '\\' ∉ template i) (h : Separate env s template A w (ps, v))
    (hi : ps i = .call op k)
    (hparent : Arrives (env i) ((env i).start (pathname (s i))) (names (pathname (s i))) true v)
    (hm : (lib i).mkdtemp (cStr (template i)) v.fs = some (dirName, fs')) :
    Separate env s template A w
      (Function.update ps i (.ret (.ok (.ofString .posix dirName))), { v with fs := fs' }) := by
  obtain ⟨hgrown, l, hl, hold, hnew, honly⟩ := exists_of_mkdtemp hm (nul_notMem_cStr _)
  have hl' : lstat (env i) fs' (Path.ofString .posix dirName).path = .ok l := by
    rwa [ofString_path_of_mkdtemp (hback i) (ht i) hm]
  have hback' : w.fs.kind l = none := by
    by_contra hne
    obtain ⟨q, hq⟩ := Option.ne_none_iff_exists'.mp hne
    simp [h.adds.grown.le _ _ hq] at hold
  refine h.update hi ⟨hgrown, ?_⟩ ?_ ?_
  · intro m hm hm'
    refine .inr ⟨i, .ofString .posix dirName, ?_, ?_⟩
    · simp
    · rw [honly m hm hm']
      exact hl'
  · exact .returned (Arrives.of_le hparent hgrown.le) hl' hback' hnew
  · -- the directory was not there before the step
    rintro m ⟨path, hret, hm⟩
    simp only [Function.update_self, ret.injEq, Except.ok.injEq] at hret
    obtain rfl : l = m := Except.ok.inj (hl'.symm.trans (hret ▸ hm))
    exact hold

end Update

/-- **What one step of the pool preserves.** A caller makes directories on the way to its parent,
or the one that it returns. -/
theorem Separate.step (hback : ∀ i t fs dirName fs', (lib i).mkdtemp t fs = some (dirName, fs') →
      '\\' ∈ dirName → '\\' ∈ t)
    (ht : ∀ i, '\\' ∉ template i) (hstep : Step (fun i => mkdtempHandler (lib i)) c c')
    (h : Separate env s template A w c) : Separate env s template A w c' := by
  obtain ⟨i, op, k, hi⟩ := hstep
  rename_i ps v
  have hcaller := h.caller i
  dsimp only at hcaller
  rw [hi] at hcaller
  generalize hp : Program.call op k = p at hcaller
  cases hcaller with
  | returned | failed => cases hp
  | running q hq =>
    rcases q with b | ⟨op', k'⟩
    · -- the parent was made, and `mkdtemp` is called
      obtain ⟨rfl, hparent⟩ := hq _ subset_rfl v (refl v)
      cases hp
      rcases hm : (lib i).mkdtemp (cStr (template i)) v.fs with _ | ⟨dirName, fs'⟩
      · rw [mkdtempHandler_of_none hm]
        refine h.update hi (refl v) (.failed ⟨rfl, hparent⟩) ?_
        rintro l ⟨path, hret, -⟩
        simp at hret
      · rw [mkdtempHandler_of_some hm]
        exact h.update_returned hback ht hi ⟨rfl, hparent⟩ hm
    · -- a call of `create_directories`
      cases hp
      have hadds := (hq _ subset_rfl v (refl v)).1
      have hsub := fun p => made_subset env (p := p) hi hadds.grown.le
      refine h.update hi (hadds.mono (Set.union_subset_union_right A (hsub _))) (.running _ ?_) ?_
      · intro B hB
        exact (hq B ((hsub _).trans hB) v (refl v)).2
      · rintro l ⟨path, hret, -⟩
        exact absurd ((Function.update_self i _ ps).symm.trans hret) (ne_ret_ok _ path)

/-- What holds of the callers of a pool holds in every interleaving. -/
theorem Separate.steps (hback : ∀ i t fs dirName fs', (lib i).mkdtemp t fs = some (dirName, fs') →
      '\\' ∈ dirName → '\\' ∈ t)
    (ht : ∀ i, '\\' ∉ template i) (hsteps : Steps (fun i => mkdtempHandler (lib i)) c c')
    (h : Separate env s template A w c) : Separate env s template A w c' := by
  induction hsteps with
  | refl => exact h
  | tail _ hstep ih => exact ih.step hback ht hstep

end Pool

end RcppUtils
