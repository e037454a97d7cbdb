import RcppUtils.Filesystem.CreateDirectoriesAlone
import RcppUtils.Path.Operations

/-!
# `create_directories` and equal paths

The loop follows the stored components, while the string of the path decides which paths are
equal. On a rootless path the two differ: the loop builds relative paths, so it depends on the
working directory and, where that was removed, makes nothing.

## Main definitions

* `RespectsEquality p`: the call on `p` does what it does on the path with the string of `p`

## Main results

* `run_makeAll_of_dead`: relative paths make nothing without a working directory
* `Path.Rootless.run_of_dots`: rootless paths of `.` and `..` differ from their strings there only
* `run_makeAll_of_rootOnly`: absolute paths succeed or make something where there is no entry
* `respectsEquality_iff`: the calls on equal paths agree exactly for coherent paths
-/

namespace RcppUtils

open Posix Program

/-- `create_directories(p)` does what `create_directories(path(p.string()))` does, from every
state and in every environment, and if `p` is absolute it does not depend on the working
directory. -/
def RespectsEquality (p : Path) : Prop :=
  ∀ (env : Env) (w : World),
    (createDirectories p).run (handler env) w =
      (createDirectories (.ofString .posix p.path)).run (handler env) w ∧
    (p.isAbsolute .posix = true → ∀ cwd,
      (createDirectories p).run (handler { env with cwd := cwd }) w =
        (createDirectories p).run (handler env) w)

/-! ## Absolute paths do not depend on the working directory -/

theorem Climb.absolute {a : Bool} {N ns : List Name} {us : List (List Char)}
    (h : Climb a N ns us) : ∀ u ∈ us, (Pathname.parse u).absolute = a := by
  induction h with
  | done => simp
  | stay hu _ ih => exact List.forall_mem_cons.mpr ⟨hu.absolute, ih⟩
  | up hu _ ih => exact List.forall_mem_cons.mpr ⟨hu.absolute, ih⟩

/-- The calls on absolute pathnames do not depend on the working directory. -/
theorem run_makeAll_of_absolute (env : Env) (cwd : Loc) {last : List Char}
    {us : List (List Char)} (hus : ∀ u ∈ us, (Pathname.parse u).absolute = true)
    (hlast : us = [] → (Pathname.parse last).absolute = true) (w : World) :
    (makeAll last us).run (handler { env with cwd := cwd }) w =
      (makeAll last us).run (handler env) w := by
  have hstart : ∀ u, (Pathname.parse u).absolute = true →
      { env with cwd := cwd }.start u = env.start u := by
    intro u hu
    simp [Env.start, hu]
  have hstat : ∀ u, (Pathname.parse u).absolute = true → ∀ fs,
      stat { env with cwd := cwd } fs u = stat env fs u := by
    intro u hu fs
    rw [stat, stat, hstart u hu]
  have hmkdir : ∀ u, (Pathname.parse u).absolute = true → ∀ fs,
      mkdir { env with cwd := cwd } fs u = mkdir env fs u := by
    intro u hu fs
    rw [mkdir, mkdir, atLast, atLast, hstart u hu]
  -- every call gets the same reply and leads to the same state
  induction us generalizing last w with
  | nil =>
    simp only [makeAll, testDirectory, run_call, handler, hstat last (hlast rfl)]
    cases stat env w.fs last <;> rfl
  | cons u us ih =>
    obtain ⟨hu, hus⟩ := List.forall_mem_cons.mp hus
    have hnext : ∀ w, (makeAll u us).run (handler { env with cwd := cwd }) w =
        (makeAll u us).run (handler env) w := ih hus fun _ => hu
    simp only [makeAll, run_call, handler, hstat u hu]
    cases stat env w.fs u with
    | ok r => exact hnext w
    | error e =>
      simp only [Except.map, run_call, handler, hmkdir u hu]
      cases mkdir env w.fs u with
      | ok fs => exact hnext _
      | error e' =>
        simp only [World.update]
        split_ifs
        · exact hnext w
        · rfl

/-! ## Relative paths without a working directory -/

section Dead

variable {env : Env} {w : World}

theorem walk_of_dead {fs : FileSystem} {cur : Loc} (h : fs.kind cur = none) (b : ℕ) (n : Name)
    (ns : List Name) : ∃ e, e ≠ .eexist ∧ walk fs b cur (n :: ns) = .error e := by
  rcases hop_or_error fs b cur n with ⟨_, _, _, hop⟩ | ⟨e, he, herr⟩
  · cases hop <;> simp_all
  · exact ⟨e, he, herr ns⟩

/-- Without a working directory no relative pathname names anything, and none can be made. -/
theorem error_of_dead (h : w.fs.kind env.cwd = none) {u : List Char}
    (hu : (Pathname.parse u).absolute = false) :
    (∃ e, stat env w.fs u = .error e) ∧ ∃ e, mkdir env w.fs u = .error e ∧ e ≠ .eexist := by
  by_cases hnil : u = []
  · -- the empty pathname names nothing anywhere
    subst hnil
    exact ⟨⟨.enoent, by simp [stat]⟩, .enoent, by simp [mkdir, atLast], by decide⟩
  have hstart : env.start u = env.cwd := by simp [Env.start, hu]
  have hhead : u.head? ≠ some '/' := by simpa [Pathname.parse] using hu
  obtain ⟨ns, n, hn⟩ := (List.eq_nil_or_concat' (names u)).resolve_left (names_ne_nil hnil hhead)
  constructor
  · apply stat_eq_error
    intro r hr
    obtain ⟨m, ms, hms⟩ := List.exists_cons_of_ne_nil (names_ne_nil hnil hhead)
    obtain ⟨e, -, he⟩ := walk_of_dead h env.symloopMax m ms
    rw [hstart, hms, he] at hr
    cases hr
  · obtain ⟨m, ms, hms⟩ := List.exists_cons_of_ne_nil (show ns ++ [dot] ≠ [] by simp)
    obtain ⟨e, hne, he⟩ := walk_of_dead h env.symloopMax m ms
    exact ⟨e, atLast_of_error hnil hn (by rw [hstart, hms, he]), hne⟩

/-- **Relative paths make nothing without a working directory.** -/
theorem run_makeAll_of_dead (h : w.fs.kind env.cwd = none) {last : List Char}
    {us : List (List Char)} (hus : ∀ u ∈ us, (Pathname.parse u).absolute = false)
    (hlast : (Pathname.parse last).absolute = false) :
    (makeAll last us).run (handler env) w = (false, w) := by
  cases us with
  | nil =>
    apply run_testDirectory_of_not
    intro l hl
    obtain ⟨⟨e, he⟩, -⟩ := error_of_dead h hlast
    simp [he] at hl
  | cons u us =>
    obtain ⟨⟨e, hs⟩, e', hm, hne⟩ := error_of_dead h (hus u (by simp))
    exact run_makeAll_cons_of_error hs hm hne

end Dead

/-! ## Absolute paths where there is no entry -/

/-- A run of `create_directories` keeps every node. -/
theorem le_run_makeAll (env : Env) (last : List Char) (us : List (List Char)) (w : World) :
    w.fs ≤ ((makeAll last us).run (handler env) w).2.fs := by
  induction us generalizing last w with
  | nil =>
    simp only [makeAll, testDirectory, run_call, handler]
    cases stat env w.fs last <;> exact le_rfl
  | cons u us ih =>
    simp only [makeAll, run_call, handler]
    cases stat env w.fs u with
    | ok r => exact ih u w
    | error e =>
      simp only [Except.map, run_call, handler]
      cases hm : mkdir env w.fs u with
      | ok fs => exact (grown_of_mkdir hm).le.trans (ih u { w with fs := fs })
      | error e' =>
        simp only [World.update]
        split_ifs
        · exact ih u w
        · exact le_rfl

/-- **Absolute paths succeed or make something** where there is no entry. The induction is on
the pathnames; the names `N` so far are `.` and `..`, and lead to the root. -/
theorem run_makeAll_of_rootOnly (env : Env) {w : World} (hfs : w.fs = .rootOnly)
    {N ns : List Name} {us : List (List Char)} (hclimb : Climb true N ns us)
    (hnames : ∀ n ∈ ns, n ≠ dot → n ≠ dotdot → IsName n) {k : ℕ}
    (hN : Leads w.fs env.symloopMax [] N [] k) {last : List Char}
    (hlast : us = [] → Spells true N last) :
    ((makeAll last us).run (handler env) w).1 = true ∨
      ((makeAll last us).run (handler env) w).2 ≠ w := by
  have hstart : ∀ u, (Pathname.parse u).absolute = true → env.start u = [] := by
    intro u hu
    simp [Env.start, hu]
  induction hclimb generalizing k last with
  | @done N =>
    have hu := hlast rfl
    left
    rw [makeAll, testDirectory, run_call,
      stat_of_leads hu.ne_nil (hu.leads hstart hN)]
    simp
  | @stay N ns u us hu _ ih =>
    rw [makeAll, run_call,
      access_of_leads hu.ne_nil (hu.leads hstart hN)]
    exact ih hnames hN fun _ => hu
  | @up N n ns u us hu _ ih =>
    obtain ⟨hname, hnames⟩ := List.forall_mem_cons.mp hnames
    -- `.` and `..` lead from the root to the root
    by_cases hdots : n = dot ∨ n = dotdot
    · have hnext : Leads w.fs env.symloopMax [] (N ++ [n]) [] k := by
        simpa using hN.concat_dots hdots
      rw [makeAll, run_call,
        access_of_leads hu.ne_nil (hu.leads hstart hnext)]
      exact ih hnames hnext fun _ => hu
    · -- the first other name is missing, and its directory is kept
      rw [not_or] at hdots
      have hname := hname hdots.1 hdots.2
      have hfree : w.fs.kind ([] ++ [n]) = none := by simp [hfs, FileSystem.kind_rootOnly]
      have hN' : Leads w.fs env.symloopMax (env.start u) N [] k := by
        rwa [hstart _ hu.absolute]
      obtain ⟨e, he⟩ := access_of_free hu.names hname hN' hfree
      right
      rw [makeAll, run_call, he]
      simp only [run_call, mkdir_of_free hu.ne_nil hu.names hname hN' hfree]
      intro heq
      have hle := le_run_makeAll env u us { w with fs := w.fs.addDirectory [] n }
      rw [heq] at hle
      have hnew := (leads_addDirectory hname hN' hfree).kind
      exact absurd ((hle _ _ hnew).symm.trans hfree) (by simp)

/-! ## Paths of dots -/

/-- Pathnames of `.` and `..` exist already. The induction is on the pathnames; the names `N` so
far lead to a directory. -/
theorem run_makeAll_of_dots {env : Env} {w : World} {a : Bool} {cur : Loc} {N ns : List Name}
    {us : List (List Char)} (hclimb : Climb a N ns us)
    (hstart : ∀ u, (Pathname.parse u).absolute = a → env.start u = cur)
    (hdots : ∀ n ∈ ns, n = dot ∨ n = dotdot) {d : Loc} {k : ℕ}
    (hN : Leads w.fs env.symloopMax cur N d k) {last : List Char}
    (hlast : us = [] → Spells a N last) : (makeAll last us).run (handler env) w = (true, w) := by
  induction hclimb generalizing d last with
  | done =>
    have hu := hlast rfl
    rw [makeAll, testDirectory, run_call, stat_of_leads hu.ne_nil (hu.leads hstart hN)]
    simp
  | stay hu _ ih =>
    rw [makeAll, run_call, access_of_leads hu.ne_nil (hu.leads hstart hN)]
    exact ih hdots hN fun _ => hu
  | up hu _ ih =>
    obtain ⟨hn, hdots⟩ := List.forall_mem_cons.mp hdots
    have hnext := hN.concat_dots hn
    rw [makeAll, run_call, access_of_leads hu.ne_nil (hu.leads hstart hnext)]
    exact ih hdots hnext fun _ => hu

/-- Components that are empty, `.` or `..` have no other names. -/
theorem dots_of_mem_componentNames {cs : List StdString}
    (hcs : ∀ c ∈ cs, c = [] ∨ c = dot ∨ c = dotdot) :
    ∀ n ∈ componentNames cs, n = dot ∨ n = dotdot := by
  induction cs with
  | nil => simp [componentNames]
  | cons c cs ih =>
    obtain ⟨hc, hcs⟩ := List.forall_mem_cons.mp hcs
    have hnul : nul ∉ c := by rcases hc with rfl | rfl | rfl <;> decide
    rw [componentNames, cStr_of_nul_notMem hnul, if_neg hnul]
    intro n hn
    rcases List.mem_append.mp hn with hn | hn
    · split_ifs at hn with hnil
      · cases hn
      · obtain rfl := List.mem_singleton.mp hn
        exact hc.resolve_left hnil
    · exact ih hcs n hn

theorem Path.Rootless.isAbsolute_ofString {p : Path} (hp : p.Rootless) :
    (Path.ofString .posix p.path).isAbsolute .posix = true := by
  rw [Path.isAbsolute_iff, Path.ofString_path, Path.stdReplace_of_notMem hp.backslash_notMem]
  exact Path.isAbsolute_iff.mp hp.isAbsolute

/-- **A rootless path of `.` and `..` exists already**, and so does the path with its string, as
long as there is a working directory. -/
theorem Path.Rootless.run_of_dots {p : Path} (hp : p.Rootless) (hne : p.pathAsVector ≠ [])
    (hdots : ∀ c ∈ p.pathAsVector, c = [] ∨ c = dot ∨ c = dotdot) {env : Env} {w : World}
    (hcwd : w.fs.kind env.cwd = some .directory) :
    (createDirectories p).run (handler env) w = (true, w) ∧
      (createDirectories (.ofString .posix p.path)).run (handler env) w = (true, w) := by
  constructor
  · obtain ⟨c, cs, hv⟩ := List.exists_cons_of_ne_nil hne
    have hcomp : ∀ c' ∈ c :: cs, Path.IsComponent c' := fun c' hc' =>
      hp.isComponent (hv ▸ hc')
    obtain ⟨hc, hcs⟩ := List.forall_mem_cons.mp hcomp
    have hnil : c ≠ [] := fun h => hp.head?_ne (by simp [hv, h])
    have hnul : nul ∉ c := by
      rcases hdots c (by simp [hv]) with rfl | rfl | rfl <;> decide
    have hclimb := climb_built_of_relative hc hcs (by rwa [cStr_of_nul_notMem hnul])
    rw [createDirectories_eq, hv]
    refine run_makeAll_of_dots hclimb ?_ (dots_of_mem_componentNames (hv ▸ hdots)) (leads_nil hcwd)
      fun h => absurd h (List.cons_ne_nil _ _)
    intro u hu
    simp [Env.start, hu]
  · -- the string has the same components behind the root
    have hco := Path.coherent_ofString p.path
    obtain ⟨ht, habs⟩ := absolute_cStr_of_isAbsolute hp.isAbsolute_ofString
    have hnames : ∀ n ∈ names (cStr (Path.ofString .posix p.path).path), n = dot ∨ n = dotdot := by
      rw [Path.ofString_path, Path.stdReplace_of_notMem hp.backslash_notMem, names_cStr,
        hp.tokens_eq]
      apply dots_of_mem_componentNames
      exact List.forall_mem_cons.mpr ⟨.inl rfl, hdots⟩
    have hclimb := climb_built hco ht
    rw [habs] at hclimb
    rw [createDirectories_eq]
    refine run_makeAll_of_dots hclimb ?_ hnames (leads_nil w.fs.kind_root)
      fun h => absurd h (built_ne_nil hco ht)
    intro u hu
    simp [Env.start, hu]

/-! ## Equal paths -/

theorem absolute_built_of_head?_ne {cs : List StdString} (hcs : ∀ c ∈ cs, Path.IsComponent c)
    (hhead : cs.head? ≠ some []) : ∀ u ∈ built cs, (Pathname.parse u).absolute = false := by
  cases cs with
  | nil => simp [builtFrom]
  | cons c cs =>
    obtain ⟨hc, hcs⟩ := List.forall_mem_cons.mp hcs
    have hc0 : c ≠ [] := by simpa using hhead
    have hnext : nextBuilt default c = .ofString .posix c := by
      rw [nextBuilt, if_neg (by simp [hc0, default])]
    have hne : (nextBuilt default c).path ≠ [] := by
      rwa [nextBuilt_default hc, if_neg hc0]
    have hrel : (nextBuilt default c).isAbsolute .posix = false := hnext ▸ hc.isAbsolute
    exact List.forall_mem_cons.mpr ⟨absolute_cStr hrel, absolute_builtFrom hne hrel hcs⟩

/-- A coherent path is the path with its string, and an absolute one builds absolute paths. -/
theorem Path.Coherent.respectsEquality {p : Path} (hp : p.Coherent) : RespectsEquality p := by
  intro env w
  refine ⟨by rw [← Path.coherent_iff.mp hp], ?_⟩
  intro habs cwd
  obtain ⟨ht, habs'⟩ := absolute_cStr_of_isAbsolute habs
  rw [createDirectories_eq]
  exact run_makeAll_of_absolute env cwd
    (fun u hu => ((climb_built hp ht).absolute u hu).trans habs')
    (fun h => absurd h (built_ne_nil hp ht)) w

/-- A rootless path makes nothing where its working directory was removed, while the path with
its string does. Where `.` still resolves in a removed directory, as on Linux, this state does not
tell a path of `.` and `..` from its string, and no state with a working directory does
(`Path.Rootless.run_of_dots`). -/
theorem Path.Rootless.not_respectsEquality {p : Path} (hp : p.Rootless) :
    ¬ RespectsEquality p := by
  intro h
  -- in a file system with no entry, the working directory `/w` is missing
  let w : World := ⟨.rootOnly, 0⟩
  have hdead : w.fs.kind (Env.ofCwd ["w".toList]).cwd = none := rfl
  have heq := (h (Env.ofCwd ["w".toList]) w).1
  have hco := Path.coherent_ofString p.path
  obtain ⟨ht, habs'⟩ := absolute_cStr_of_isAbsolute hp.isAbsolute_ofString
  have hclimb := climb_built hco ht
  rw [habs'] at hclimb
  have hroot : ∀ last, ((makeAll last _).run (handler (Env.ofCwd ["w".toList])) w).1 = true ∨
      ((makeAll last _).run (handler (Env.ofCwd ["w".toList])) w).2 ≠ w := fun last =>
    run_makeAll_of_rootOnly (Env.ofCwd ["w".toList]) rfl hclimb
      (fun n hn hd hdd => isName_of_mem_names (nul_notMem_cStr _) hn hd hdd)
      (leads_nil w.fs.kind_root) fun h => absurd h (built_ne_nil hco ht)
  rw [createDirectories_eq p, run_makeAll_of_dead hdead
    (absolute_built_of_head?_ne (fun c hc => hp.isComponent hc) hp.head?_ne) rfl,
    createDirectories_eq] at heq
  -- the path with the string is absolute, so it succeeds or makes something
  rcases hroot [] with htrue | hne
  · exact Bool.false_ne_true ((congrArg Prod.fst heq).trans htrue)
  · exact hne (congrArg Prod.snd heq.symm)

/-- **`create_directories` respects the equality of paths** exactly where the stored components
are those of the string. The other paths are told from their strings in a state whose working
directory was removed, and paths of `.` and `..` in no other state. -/
theorem respectsEquality_iff {p : Path} (hp : Path.Reachable p) :
    RespectsEquality p ↔ p.pathAsVector = split p.path '/' false := by
  rw [split_eq_tokens]
  rcases hp.coherent_or_rootless with hco | hroot
  · exact iff_of_true hco.respectsEquality hco.pathAsVector_eq
  · apply iff_of_false hroot.not_respectsEquality
    intro h
    exact hroot.not_coherent ⟨hroot.backslash_notMem, h⟩

theorem respectsEquality_iff_parentPath_ab :
    RespectsEquality ⟨"/a".toList, ["a".toList]⟩ ↔
      ["a".toList] = split "/a".toList '/' false :=
  respectsEquality_iff ⟨[.construct 0 "/a/b".toList, .parentPath 0 0], _, 0, rfl, rfl⟩

/-- In the working directory `/w`, the call on the parent of `/a/b` makes `/w/a`, where the call
on `/a` makes `/a`. -/
theorem not_respectsEquality_parentPath_ab :
    Path.Reachable ⟨"/a".toList, ["a".toList]⟩ ∧
      ¬ RespectsEquality ⟨"/a".toList, ["a".toList]⟩ := by
  refine ⟨⟨[.construct 0 "/a/b".toList, .parentPath 0 0], _, 0, rfl, rfl⟩, ?_⟩
  intro h
  have heq := (h (Env.ofCwd ["w".toList]) ⟨FileSystem.rootOnly.addDirectory [] "w".toList, 0⟩).1
  have hkind := congrArg (fun r => r.2.fs.kind ["w".toList, "a".toList]) heq
  revert hkind
  decide

end RcppUtils
