import RcppUtils.Posix.Resolution
import RcppUtils.Program.Concurrent

/-!
# System calls

The calls that programs make on a file system. Each reads its pathname as a C string from the
working directory of the caller. A directory stream holds the entries that are still to be
read; the order in which a directory is listed is up to the environment.

## Main definitions

* `Env`, `World`: what is fixed during a run, and the state that the calls act on
* `stat`, `lstat`, `mkdir`, `remove`: the calls on one pathname
* `SysCall`, `handler`: all calls, and their meaning as operations of a program

## Main results

* `stat_directory_iff`: where a pathname names a directory
* `atLast_of_walk`, `atLast_eq_ok`: a call acts on the last name in the directory before it
* `mkdir_of_walk`, `mkdir_eq_ok`, `remove_eq_ok`: what these calls add and take away
-/

namespace Posix

/-- What is fixed during a run: the working directory, the number of symbolic links that a
resolution may follow, and the order in which the `k`-th opened directory is listed. -/
structure Env where
  cwd : Loc
  symloopMax : ℕ
  order : ℕ → List Name → List Name
  order_perm : ∀ k l, (order k l).Perm l

/-- The environment with a working directory, the usual limit on links, and directories listed in
the order of their entries. -/
def Env.ofCwd (cwd : Loc) : Env := ⟨cwd, 40, fun _ l => l, fun _ l => .refl l⟩

/-- The state that the calls act on: the file system, and the number of directory streams
opened so far. -/
structure World where
  fs : FileSystem
  opened : ℕ

/-- A directory stream: the entries that are still to be read. -/
structure Dir where
  id : ℕ
  unread : List Name
  deriving DecidableEq

section Calls

variable (env : Env) (fs : FileSystem) (s : List Char)

/-- Where the resolution of `s` starts. -/
def Env.start : Loc := if (Pathname.parse s).absolute then [] else env.cwd

/-- The node that `s` names, symbolic links followed: its location and its kind. -/
def stat : Except Errno (Loc × Kind) :=
  if s = [] then .error .enoent
  else
    match walk fs env.symloopMax (env.start s) (Pathname.parse s).steps with
    | .error e => .error e
    | .ok (l, _) =>
      match fs.kind l with
      | some k => .ok (l, k)
      | none => .error .enoent

/-- A call that acts on the last name of `s` in the directory that the other names lead to. -/
def atLast {β : Type} (root : Except Errno β) (f : Loc → Name → Except Errno β) :
    Except Errno β :=
  if s = [] then .error .enoent
  else
    match (names s).getLast? with
    -- the pathname names the root
    | none => root
    | some n =>
      match walk fs env.symloopMax (env.start s) ((names s).dropLast ++ [dot]) with
      | .error e => .error e
      | .ok (d, _) => f d n

/-- The location of the entry that `s` names, a last symbolic link not followed. -/
def lstat : Except Errno Loc :=
  atLast env fs s (.ok []) fun d n =>
    if n = dot then .ok d
    else if n = dotdot then .ok d.dropLast
    else if fs.kind (d ++ [n]) = none then .error .enoent
    else .ok (d ++ [n])

/-- `mkdir(2)`, for a caller that has all permissions. -/
def mkdir : Except Errno FileSystem :=
  atLast env fs s (.error .eexist) fun d n =>
    if n = dot ∨ n = dotdot ∨ fs.kind (d ++ [n]) ≠ none then .error .eexist
    else .ok (fs.addDirectory d n)

/-- `remove(3)`, for a caller that has all permissions: an empty directory or another entry,
never through `.` or `..`. -/
def remove : Except Errno FileSystem :=
  atLast env fs s (.error .ebusy) fun d n =>
    if n = dot then .error .einval
    else if n = dotdot then .error .enotempty
    else
      match fs.kind (d ++ [n]) with
      | none => .error .enoent
      | some .directory =>
        -- `rmdir` takes empty directories only
        if fs.children (d ++ [n]) = [] then .ok (fs.erase (d ++ [n])) else .error .enotempty
      | some _ =>
        -- a trailing slash asks for a directory
        if (Pathname.parse s).slash then .error .enotdir else .ok (fs.erase (d ++ [n]))

end Calls

/-! ## What the calls depend on -/

section Lemmas

variable {env : Env} {fs : FileSystem} {s : List Char}

theorem stat_eq_ok {l : Loc} {k : Kind} :
    stat env fs s = .ok (l, k) ↔ s ≠ [] ∧
      (∃ b, walk fs env.symloopMax (env.start s) (Pathname.parse s).steps = .ok (l, b)) ∧
      fs.kind l = some k := by
  rw [stat]
  split_ifs with hs
  · simp [hs]
  · cases hw : walk fs env.symloopMax (env.start s) (Pathname.parse s).steps with
    | error e => simp
    | ok r =>
      obtain ⟨l', b⟩ := r
      cases hk : fs.kind l' with
      | none =>
        simp only [hk, reduceCtorEq, false_iff]
        rintro ⟨-, ⟨b', hb⟩, hk'⟩
        cases hb
        simp [hk] at hk'
      | some k' =>
        simp only [hk, Except.ok.injEq, Prod.mk.injEq]
        constructor
        · rintro ⟨rfl, rfl⟩
          exact ⟨hs, ⟨b, rfl, rfl⟩, hk⟩
        · rintro ⟨-, ⟨b', rfl, -⟩, hk'⟩
          exact ⟨rfl, Option.some_inj.mp (hk.symm.trans hk')⟩

/-- A pathname names nothing where its names lead nowhere. -/
theorem stat_eq_error (h : ∀ r, walk fs env.symloopMax (env.start s) (names s) ≠ .ok r) :
    ∃ e, stat env fs s = .error e := by
  cases hs : stat env fs s with
  | error e => exact ⟨e, rfl⟩
  | ok r =>
    -- a trailing slash only adds a step behind the names
    obtain ⟨-, ⟨b, hw⟩, -⟩ := stat_eq_ok.mp hs
    rw [Pathname.steps] at hw
    obtain ⟨q, hq, -⟩ := exists_walk_of_append hw
    exact absurd hq (h q)

/-- **Where a pathname names a directory**: a trailing slash makes no difference then. -/
theorem stat_directory_iff {l : Loc} :
    stat env fs s = .ok (l, .directory) ↔ s ≠ [] ∧
      (∃ b, walk fs env.symloopMax (env.start s) (names s) = .ok (l, b)) ∧
      fs.kind l = some .directory := by
  rw [stat_eq_ok, Pathname.steps]
  cases (Pathname.parse s).slash with
  | false => simp [Pathname.parse]
  | true =>
    simp only [if_true, Pathname.parse, walk_concat_dot]
    constructor
    · rintro ⟨hs, ⟨b, hb, hk⟩, -⟩
      exact ⟨hs, ⟨b, hb⟩, hk⟩
    · rintro ⟨hs, ⟨b, hb⟩, hk⟩
      exact ⟨hs, ⟨b, hb, hk⟩, hk⟩

section AtLast

variable {β : Type} {root : Except Errno β} {f : Loc → Name → Except Errno β}

theorem atLast_of_names_eq_nil (hs : s ≠ []) (hn : names s = []) :
    atLast env fs s root f = root := by
  simp [atLast, hs, hn]

/-- A call acts on the last name in the directory that the other names lead to. -/
theorem atLast_of_walk (hs : s ≠ []) {ns : List Name} {n : Name} (hn : names s = ns ++ [n])
    {d : Loc} {b : ℕ} (hw : walk fs env.symloopMax (env.start s) ns = .ok (d, b))
    (hd : fs.kind d = some .directory) : atLast env fs s root f = f d n := by
  have hdot : walk fs env.symloopMax (env.start s) (ns ++ [dot]) = .ok (d, b) :=
    walk_concat_dot.mpr ⟨hw, hd⟩
  simp [atLast, hs, hn, hdot]

theorem atLast_of_error (hs : s ≠ []) {ns : List Name} {n : Name} (hn : names s = ns ++ [n])
    {e : Errno} (hw : walk fs env.symloopMax (env.start s) (ns ++ [dot]) = .error e) :
    atLast env fs s root f = .error e := by
  simp [atLast, hs, hn, hw]

theorem atLast_eq_ok {r : β} (h : atLast env fs s root f = .ok r) :
    s ≠ [] ∧ (names s = [] ∧ root = .ok r ∨
      ∃ ns n d b, names s = ns ++ [n] ∧
        walk fs env.symloopMax (env.start s) ns = .ok (d, b) ∧
        fs.kind d = some .directory ∧ f d n = .ok r) := by
  by_cases hs : s = []
  · simp [atLast, hs] at h
  refine ⟨hs, ?_⟩
  rcases List.eq_nil_or_concat' (names s) with hn | ⟨ns, n, hn⟩
  · rw [atLast_of_names_eq_nil hs hn] at h
    exact .inl ⟨hn, h⟩
  · right
    cases hw : walk fs env.symloopMax (env.start s) (ns ++ [dot]) with
    | error e => simp [atLast_of_error hs hn hw] at h
    | ok q =>
      obtain ⟨d, b⟩ := q
      obtain ⟨hw, hd⟩ := walk_concat_dot.mp hw
      rw [atLast_of_walk hs hn hw hd] at h
      exact ⟨ns, n, d, b, hn, hw, hd, h⟩

end AtLast

/-- **What `mkdir` adds.** -/
theorem mkdir_of_walk (hs : s ≠ []) {ns : List Name} {n : Name} (hn : names s = ns ++ [n])
    {d : Loc} {b : ℕ} (hw : walk fs env.symloopMax (env.start s) ns = .ok (d, b))
    (hd : fs.kind d = some .directory) :
    mkdir env fs s =
      if n = dot ∨ n = dotdot ∨ fs.kind (d ++ [n]) ≠ none then .error .eexist
      else .ok (fs.addDirectory d n) :=
  atLast_of_walk hs hn hw hd

/-- What `mkdir` has added when it succeeds: the last name, in the directory before it. -/
theorem mkdir_eq_ok {fs' : FileSystem} (h : mkdir env fs s = .ok fs') :
    ∃ ns n d b, s ≠ [] ∧ names s = ns ++ [n] ∧ n ≠ dot ∧ n ≠ dotdot ∧
      walk fs env.symloopMax (env.start s) ns = .ok (d, b) ∧
      fs.kind d = some .directory ∧ fs.kind (d ++ [n]) = none ∧ fs' = fs.addDirectory d n := by
  obtain ⟨hs, ⟨-, hroot⟩ | ⟨ns, n, d, b, hn, hw, hd, hf⟩⟩ := atLast_eq_ok h
  · cases hroot
  · split_ifs at hf with hex
    simp only [not_or, not_not] at hex
    obtain ⟨hdot, hddot, hnone⟩ := hex
    exact ⟨ns, n, d, b, hs, hn, hdot, hddot, hw, hd, hnone, (Except.ok.inj hf).symm⟩

/-- `mkdir` changes the file system by new directories only. -/
theorem grown_of_mkdir {fs' : FileSystem} (h : mkdir env fs s = .ok fs') : fs.Grown fs' := by
  obtain ⟨_, n, d, _, -, -, -, -, -, -, -, rfl⟩ := mkdir_eq_ok h
  exact FileSystem.grown_addDirectory d n

/-- **What `remove` takes away**: the entry that the pathname names. -/
theorem remove_eq_ok {fs' : FileSystem} (h : remove env fs s = .ok fs') :
    ∃ ns n d b, s ≠ [] ∧ names s = ns ++ [n] ∧ n ≠ dot ∧ n ≠ dotdot ∧
      walk fs env.symloopMax (env.start s) ns = .ok (d, b) ∧
      fs.kind d = some .directory ∧ fs.kind (d ++ [n]) ≠ none ∧
      fs.children (d ++ [n]) = [] ∧ fs' = fs.erase (d ++ [n]) := by
  obtain ⟨hs, ⟨-, hroot⟩ | ⟨ns, n, d, b, hn, hw, hd, hf⟩⟩ := atLast_eq_ok h
  · cases hroot
  · -- neither `.` nor `..` can be removed
    by_cases hdot : n = dot
    · simp [hdot] at hf
    by_cases hddot : n = dotdot
    · simp [hddot] at hf
    rw [if_neg hdot, if_neg hddot] at hf
    cases hk : fs.kind (d ++ [n]) with
    | none => simp [hk] at hf
    | some k =>
      obtain ⟨hc, rfl⟩ : fs.children (d ++ [n]) = [] ∧ fs' = fs.erase (d ++ [n]) := by
        cases k with
        | directory =>
          simp only [hk] at hf
          split_ifs at hf with hc
          exact ⟨hc, (Except.ok.inj hf).symm⟩
        | regular | symlink _ =>
          simp only [hk] at hf
          split_ifs at hf
          exact ⟨FileSystem.children_eq_nil (by simp [hk]), (Except.ok.inj hf).symm⟩
      exact ⟨ns, n, d, b, hs, hn, hdot, hddot, hw, hd, by simp [hk], hc, rfl⟩

end Lemmas

/-! ## The calls as operations -/

/-- The system calls, with their pathnames and streams. -/
inductive SysCall
  | access (path : List Char)
  | stat (path : List Char)
  | mkdir (path : List Char)
  | remove (path : List Char)
  | opendir (path : List Char)
  | readdir (dir : Dir)
  | closedir (dir : Dir)
  deriving DecidableEq

/-- What each call returns: an error number or its result; a null pointer is `none`. -/
def SysCall.Reply : SysCall → Type
  | .access _ => Except Errno Unit
  | .stat _ => Except Errno Kind
  | .mkdir _ => Except Errno Unit
  | .remove _ => Except Errno Unit
  | .opendir _ => Option Dir
  | .readdir _ => Option (Name × Dir)
  | .closedir _ => Unit

/-- Programs that make system calls. -/
abbrev SysProgram := Program SysCall SysCall.Reply

namespace SysProgram

/-- The program that makes one call of `access(2)`; the others are alike. -/
def access (path : List Char) : SysProgram (Except Errno Unit) :=
  Program.perform (SysCall.access path)

def stat (path : List Char) : SysProgram (Except Errno Kind) :=
  Program.perform (SysCall.stat path)

def mkdir (path : List Char) : SysProgram (Except Errno Unit) :=
  Program.perform (SysCall.mkdir path)

def remove (path : List Char) : SysProgram (Except Errno Unit) :=
  Program.perform (SysCall.remove path)

def opendir (path : List Char) : SysProgram (Option Dir) :=
  Program.perform (SysCall.opendir path)

def readdir (dir : Dir) : SysProgram (Option (Name × Dir)) :=
  Program.perform (SysCall.readdir dir)

def closedir (dir : Dir) : SysProgram Unit :=
  Program.perform (SysCall.closedir dir)

end SysProgram

/-- The effect of a call that changes the file system when it succeeds. -/
def World.update (w : World) : Except Errno FileSystem → Except Errno Unit × World
  | .ok fs => (.ok (), { w with fs := fs })
  | .error e => (.error e, w)

/-- **The meaning of the system calls.** -/
def handler (env : Env) : Handler SysCall SysCall.Reply World
  | .access path, w => ((Posix.stat env w.fs path).map fun _ => (), w)
  | .stat path, w => ((Posix.stat env w.fs path).map Prod.snd, w)
  | .mkdir path, w => w.update (Posix.mkdir env w.fs path)
  | .remove path, w => w.update (Posix.remove env w.fs path)
  | .opendir path, w =>
    match Posix.stat env w.fs path with
    | .ok (l, .directory) =>
      (some ⟨w.opened, env.order w.opened (dot :: dotdot :: w.fs.children l)⟩,
        { w with opened := w.opened + 1 })
    | _ => (none, w)
  | .readdir dir, w =>
    match dir.unread with
    | [] => (none, w)
    | n :: rest => (some (n, { dir with unread := rest }), w)
  | .closedir _, w => ((), w)

end Posix
