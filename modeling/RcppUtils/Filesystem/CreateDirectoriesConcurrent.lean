import RcppUtils.Filesystem.CreateDirectories
import RcppUtils.Posix.Frontier

/-!
# `create_directories` among other callers

A caller goes from directory to directory along the names of its path. Between its test for the
next entry and its own `mkdir`, another caller may have made the entry; that is a directory too,
so the caller goes on either way. The other callers only add directories at the locations of
missing prefixes, and this is what each caller relies on and guarantees.

## Main definitions

* `pathname s`: the C string that the calls on `path(s)` see
* `Adds A`: steps that add directories, at locations in `A` only
* `Ready`: a caller may make the next directory of its path, unless it is there
* `DoNotInterfere`: what a pool of callers returns and changes

## Main results

* `meets_makeAll`: a caller that stays ready returns true, whatever the others do
* `createDirectories_concurrent`: all callers return true, and make the missing prefixes
-/

namespace RcppUtils

open Posix Program

/-- The C string that the calls on `path(s)` see. -/
def pathname (s : StdString) : List Char := cStr (Path.ofString .posix s).path

/-- The second state has the nodes of the first, and directories at locations in `A` besides. -/
structure Adds (A : Set Loc) (w w' : World) : Prop where
  grown : w.fs.Grown w'.fs
  mem : ∀ l, w.fs.kind l = none → w'.fs.kind l ≠ none → l ∈ A

instance (A : Set Loc) : Std.Refl (Adds A) :=
  ⟨fun w => ⟨refl w.fs, fun _ h h' => absurd h h'⟩⟩

instance (A : Set Loc) : IsTrans World (Adds A) where
  trans w w' w'' h h' := by
    refine ⟨IsTrans.trans _ _ _ h.grown h'.grown, ?_⟩
    intro l hl hl''
    by_cases hl' : w'.fs.kind l = none
    · exact h'.mem l hl' hl''
    · exact h.mem l hl hl'

theorem adds_addDirectory {A : Set Loc} {d : Loc} {n : Name} (h : d ++ [n] ∈ A) (w : World) :
    Adds A w { w with fs := w.fs.addDirectory d n } := by
  refine ⟨FileSystem.grown_addDirectory d n, ?_⟩
  intro l hl hl'
  rcases FileSystem.kind_addDirectory_cases d n l with he | ⟨rfl, -, -⟩
  · exact absurd (he.trans hl) hl'
  · exact h

section Caller

variable {env : Env} {R : World → World → Prop} {cur : Loc} {T : List Name} {w₀ : World}

/-- A caller on the way along `T` may make the next directory, unless it is there, whatever the
others did since `w₀`. -/
def Ready (env : Env) (R : World → World → Prop) (cur : Loc) (T : List Name) (w₀ : World) : Prop :=
  ∀ w, R w₀ w → ∀ N n l k, N ++ [n] <+: T → Leads w.fs env.symloopMax cur N l k →
    (∃ l' k', Leads w.fs env.symloopMax cur (N ++ [n]) l' k') ∨
      w.fs.kind (l ++ [n]) = none ∧ IsName n ∧ R w { w with fs := w.fs.addDirectory l n }

/-- What a caller returns with: true, and the names lead to a directory. -/
def Arrives (env : Env) (cur : Loc) (T : List Name) (b : Bool) (w : World) : Prop :=
  b = true ∧ ∃ l k, Leads w.fs env.symloopMax cur T l k

/-- Where its names lead is where a pathname leads. -/
theorem Spells.leads {fs : FileSystem} {a : Bool} {N : List Name} {u : List Char}
    (hu : Spells a N u) (hstart : ∀ u, (Pathname.parse u).absolute = a → env.start u = cur)
    {l : Loc} {k : ℕ} (h : Leads fs env.symloopMax cur N l k) :
    Leads fs env.symloopMax (env.start u) (Posix.names u) l k := by
  rw [hstart u hu.absolute, hu.names]
  exact h

theorem access_of_leads {u : List Char} {w : World} (hu : u ≠ []) {l : Loc} {k : ℕ}
    (h : Leads w.fs env.symloopMax (env.start u) (names u) l k) :
    handler env (.access u) w = (.ok (), w) := by
  have hstat := (stat_directory_iff_leads hu).mpr ⟨k, h⟩
  simp [handler, hstat, Except.map]

theorem stat_of_leads {u : List Char} {w : World} (hu : u ≠ []) {l : Loc} {k : ℕ}
    (h : Leads w.fs env.symloopMax (env.start u) (names u) l k) :
    handler env (.stat u) w = (.ok .directory, w) := by
  have hstat := (stat_directory_iff_leads hu).mpr ⟨k, h⟩
  simp [handler, hstat, Except.map]

/-- The test fails where the next entry is missing. -/
theorem access_of_free {u : List Char} {w : World} {N : List Name} {n : Name}
    (hn : names u = N ++ [n]) (hname : IsName n) {l : Loc} {k : ℕ}
    (h : Leads w.fs env.symloopMax (env.start u) N l k) (hfree : w.fs.kind (l ++ [n]) = none) :
    ∃ e, handler env (.access u) w = (.error e, w) := by
  have hnone : ∀ r, walk w.fs env.symloopMax (env.start u) (names u) ≠ .ok r := by
    intro r hr
    rw [hn, h.walk_concat] at hr
    exact kind_ne_none_of_walk hr hname.ne_dot hname.ne_dotdot hfree
  obtain ⟨e, he⟩ := stat_eq_error hnone
  exact ⟨e, by simp [handler, he, Except.map]⟩

theorem mkdir_of_leads {u : List Char} {w : World} (hu : u ≠ []) {N : List Name} {n : Name}
    (hn : names u = N ++ [n]) {l : Loc} {k : ℕ}
    (h : Leads w.fs env.symloopMax (env.start u) N l k) (hkind : w.fs.kind (l ++ [n]) ≠ none) :
    handler env (.mkdir u) w = (.error .eexist, w) := by
  show w.update (mkdir env w.fs u) = _
  rw [mkdir_of_walk hu hn h.walk h.kind, if_pos (.inr (.inr hkind))]
  rfl

theorem mkdir_of_free {u : List Char} {w : World} (hu : u ≠ []) {N : List Name} {n : Name}
    (hn : names u = N ++ [n]) (hname : IsName n) {l : Loc} {k : ℕ}
    (h : Leads w.fs env.symloopMax (env.start u) N l k) (hfree : w.fs.kind (l ++ [n]) = none) :
    handler env (.mkdir u) w = (.ok (), { w with fs := w.fs.addDirectory l n }) := by
  show w.update (mkdir env w.fs u) = _
  rw [mkdir_of_walk hu hn h.walk h.kind, if_neg (by simp [hname.ne_dot, hname.ne_dotdot, hfree])]
  rfl

/-- A new directory is one step on. -/
theorem leads_addDirectory {fs : FileSystem} {b : ℕ} {N : List Name} {n : Name} (hname : IsName n)
    {l : Loc} {k : ℕ} (h : Leads fs b cur N l k) (hfree : fs.kind (l ++ [n]) = none) :
    Leads (fs.addDirectory l n) b cur (N ++ [n]) (l ++ [n]) k := by
  apply (h.of_le (FileSystem.grown_addDirectory l n).le).concat hname.ne_dot hname.ne_dotdot
  rw [FileSystem.kind_addDirectory h.kind hfree hname, if_pos rfl]

/-- **A caller that stays ready arrives**, whatever the others do. The induction is on the
pathnames it makes; `N` are the names that lead to a directory already. -/
theorem meets_makeAll [Std.Refl R] [IsTrans World R] (hle : ∀ w w', R w w' → w.fs ≤ w'.fs)
    (hready : Ready env R cur T w₀) {a : Bool}
    (hstart : ∀ u, (Pathname.parse u).absolute = a → env.start u = cur) {N ns : List Name}
    {us : List (List Char)} (hclimb : Climb a N ns us) (hT : N ++ ns = T) {w : World}
    (hw : R w₀ w) {l : Loc} {k : ℕ} (hN : Leads w.fs env.symloopMax cur N l k)
    {last : List Char} (hlast : us = [] → Spells a N last) :
    Meets (handler env) R (Arrives env cur T) (makeAll last us) w := by
  induction hclimb generalizing w l k last with
  | @done N =>
    -- all names are passed, and the last pathname is tested
    have hu := hlast rfl
    rw [List.append_nil] at hT
    subst hT
    refine Meets.call ?_ ?_
    · intro w₁ _
      exact refl w₁
    · intro w₁ h₁
      have hN₁ := hN.of_le (hle _ _ h₁)
      rw [stat_of_leads hu.ne_nil (hu.leads hstart hN₁)]
      exact fun w₂ h₂ => ⟨by simp, l, k, hN₁.of_le (hle _ _ h₂)⟩
  | @stay N ns u us hu _ ih =>
    apply Meets.call (fun w₁ _ => refl w₁)
    intro w₁ h₁
    have hN₁ := hN.of_le (hle _ _ h₁)
    rw [access_of_leads hu.ne_nil (hu.leads hstart hN₁)]
    exact ih hT (IsTrans.trans _ _ _ hw h₁) hN₁ fun _ => hu
  | @up N n ns u us hu _ ih =>
    have hp : N ++ [n] <+: T := ⟨ns, by simpa using hT⟩
    have hT' : N ++ [n] ++ ns = T := by simpa using hT
    apply Meets.call (fun w₁ _ => refl w₁)
    intro w₁ h₁
    have hw₁ := IsTrans.trans _ _ _ hw h₁
    have hN₁ := hN.of_le (hle _ _ h₁)
    rcases hready w₁ hw₁ N n l k hp hN₁ with ⟨l', k', hnext⟩ | ⟨hfree, hname, -⟩
    · -- the entry is there, so there is no `mkdir`
      rw [access_of_leads hu.ne_nil (hu.leads hstart hnext)]
      exact ih hT' hw₁ hnext fun _ => hu
    -- the test fails, and another caller may come before the `mkdir`
    have hu₁ : Leads w₁.fs env.symloopMax (env.start u) N l k := by rwa [hstart _ hu.absolute]
    obtain ⟨e, he⟩ := access_of_free hu.names hname hu₁ hfree
    rw [he]
    intro w₂ h₂
    have hw₂ := IsTrans.trans _ _ _ hw₁ h₂
    have hN₂ := hN₁.of_le (hle _ _ h₂)
    have hu₂ := hu₁.of_le (hle _ _ h₂)
    rcases hready w₂ hw₂ N n l k hp hN₂ with ⟨l', k', hnext⟩ | ⟨hfree, -, hadd⟩
    · -- the entry is there by now
      have hkind := kind_ne_none_of_walk (hN₂.walk_concat n ▸ hnext.walk) hname.ne_dot
        hname.ne_dotdot
      rw [mkdir_of_leads hu.ne_nil hu.names hu₂ hkind]
      exact ⟨refl w₂, ih hT' hw₂ hnext fun _ => hu⟩
    · -- the entry is still missing, and the caller makes it
      rw [mkdir_of_free hu.ne_nil hu.names hname hu₂ hfree]
      exact ⟨hadd, ih hT' (IsTrans.trans _ _ _ hw₂ hadd) (leads_addDirectory hname hN₂ hfree)
        fun _ => hu⟩

end Caller

/-! ## All callers together -/

section Frontier

variable {env : Env} {w : World} {t : List Char} {done rest : List Name} {d : Loc} {k : ℕ}

/-- A caller with a frontier stays ready among callers that add directories in `A`, when `A` has
its own missing locations. -/
theorem ready_of_frontier {A : Set Loc}
    (h : Frontier w.fs env.symloopMax (env.start t) done rest d k) (ht : names t = done ++ rest)
    (hdots : ∀ n ∈ names t, n ≠ dot ∧ n ≠ dotdot) (hnul : nul ∉ t)
    (hA : ∀ r, r ≠ [] → r <+: rest → d ++ r ∈ A) :
    Ready env (Adds A) (env.start t) (names t) w := by
  intro w' hw' N n l j hp hl
  have hrest : ∀ n ∈ rest, n ≠ dot ∧ n ≠ dotdot := fun n hn => hdots n (by simp [ht, hn])
  have hn : n ∈ names t := hp.subset (by simp)
  rw [ht] at hp
  apply (h.leads_or_free hw'.grown hrest hp hl).imp_right
  rintro ⟨hfree, r, rfl, rfl, hr⟩
  have hmem : d ++ r ++ [n] ∈ A := by
    rw [List.append_assoc]
    exact hA _ (by simp) hr
  exact ⟨hfree, isName_of_mem_names hnul hn (hdots n hn).1 (hdots n hn).2,
    adds_addDirectory hmem w'⟩

/-- **What one caller meets** while it stays ready. -/
theorem meets_createDirectories {R : World → World → Prop} [Std.Refl R] [IsTrans World R]
    (hle : ∀ w w', R w w' → w.fs ≤ w'.fs) {s : StdString} (hs : pathname s ≠ [])
    (hstart : w.fs.kind (env.start (pathname s)) = some .directory)
    (hready : Ready env R (env.start (pathname s)) (names (pathname s)) w) :
    Meets (handler env) R (Arrives env (env.start (pathname s)) (names (pathname s)))
      (createDirectories (.ofString .posix s)) w := by
  have hp := Path.coherent_ofString s
  rw [createDirectories_eq]
  exact meets_makeAll hle hready (fun u hu => start_eq_of_absolute_eq hu) (climb_built hp hs)
    (List.nil_append _) (refl w) (leads_nil hstart) fun h => absurd h (built_ne_nil hp hs)

end Frontier

/-- The callers of `create_directories` on the paths `s`, sharing the state `w`, do not disturb
each other: no interleaving is infinite; a caller that returns returns true, and its path and all
prefixes of it name directories then, and from then on; and when no caller has a call left, all
have returned and the new entries are the missing prefixes of the paths. -/
structure DoNotInterfere {ι : Type} [DecidableEq ι] (env : ι → Env) (s : ι → StdString)
    (w : World) : Prop where
  ends : ¬ ∃ c : ℕ → (ι → SysProgram Bool) × World,
    c 0 = (fun i => createDirectories (.ofString .posix (s i)), w) ∧
      ∀ n, Step (fun i => handler (env i)) (c n) (c (n + 1))
  returns_true : ∀ c,
    Steps (fun i => handler (env i))
      (fun i => createDirectories (.ofString .posix (s i)), w) c →
    ∀ i b, c.1 i = .ret b → b = true
  directories : ∀ c,
    Steps (fun i => handler (env i))
      (fun i => createDirectories (.ofString .posix (s i)), w) c →
    ∀ i b, c.1 i = .ret b → NamesDirectories (env i) c.2.fs (pathname (s i))
  result : ∀ c,
    Steps (fun i => handler (env i))
      (fun i => createDirectories (.ofString .posix (s i)), w) c →
    (∀ c', ¬ Step (fun i => handler (env i)) c c') →
    (∀ i, c.1 i = .ret true) ∧ (∀ i, NamesDirectories (env i) c.2.fs (pathname (s i))) ∧
      w.fs.Grown c.2.fs ∧
      ∀ l, w.fs.kind l = none ∧ c.2.fs.kind l ≠ none ↔
        ∃ i, IsMissingPrefix (env i) w.fs c.2.fs (pathname (s i)) l

/-- **Callers of `create_directories` do not interfere**, as long as no prefix of their paths
names a non-directory. -/
theorem createDirectories_concurrent {ι : Type} [Fintype ι] [DecidableEq ι] (env : ι → Env)
    (s : ι → StdString) (w : World)
    (hcwd : ∀ i, w.fs.kind (env i).cwd = some .directory) (hs : ∀ i, pathname (s i) ≠ [])
    (hdots : ∀ i, ∀ n ∈ names (pathname (s i)), n ≠ dot ∧ n ≠ dotdot)
    (hclear : ∀ i u, IsPathPrefix u (pathname (s i)) → ¬ NamesNonDirectory (env i) w.fs u) :
    DoNotInterfere env s w := by
  -- every path has a frontier
  choose done rest d k hnames hfrontier using fun i =>
    exists_frontier (kind_start (hcwd i) _) (hclear i)
  -- the locations where some caller has to make a directory
  let A : Set Loc := {l | ∃ i r, r ≠ [] ∧ r <+: rest i ∧ l = d i ++ r}
  have hmeets : ∀ i, Meets (handler (env i)) (Adds A)
      (Arrives (env i) ((env i).start (pathname (s i))) (names (pathname (s i))))
      (createDirectories (.ofString .posix (s i))) w := fun i =>
    meets_createDirectories (fun _ _ h => h.grown.le) (hs i) (kind_start (hcwd i) _)
      (ready_of_frontier (hfrontier i) (hnames i) (hdots i) (nul_notMem_cStr _)
        fun r hr hp => ⟨i, r, hr, hp, rfl⟩)
  -- what a caller meets holds when it has returned
  have hret : ∀ c, Steps (fun i => handler (env i))
      (fun i => createDirectories (.ofString .posix (s i)), w) c → ∀ i b, c.1 i = .ret b →
      Arrives (env i) ((env i).start (pathname (s i))) (names (pathname (s i))) b c.2 := by
    intro c hc i b hb
    have hi := (meets_of_steps hc hmeets).2 i
    rw [hb] at hi
    exact hi c.2 (refl c.2)
  have hdirs : ∀ c, Steps (fun i => handler (env i))
      (fun i => createDirectories (.ofString .posix (s i)), w) c → ∀ i b, c.1 i = .ret b →
      NamesDirectories (env i) c.2.fs (pathname (s i)) := by
    intro c hc i b hb
    obtain ⟨-, e, j, hlead⟩ := hret c hc i b hb
    exact namesDirectories_of_leads hlead
  refine ⟨fun ⟨c, _, hc⟩ => not_infinite_steps c hc, fun c hc i b hb => (hret c hc i b hb).1,
    hdirs, ?_⟩
  intro c hc hend
  have hadds := (meets_of_steps hc hmeets).1
  have hall : ∀ i, c.1 i = .ret true := by
    intro i
    obtain ⟨b, hb⟩ := exists_ret_of_not_step hend i
    rw [hb, (hret c hc i b hb).1]
  refine ⟨hall, fun i => hdirs c hc i true (hall i), hadds.grown, ?_⟩
  intro l
  constructor
  · -- a new entry is at a location of `A`, so it is a missing prefix of a caller
    rintro ⟨hold, hnew⟩
    obtain ⟨i, r, hr, hp, rfl⟩ := hadds.mem l hold hnew
    obtain ⟨-, e, j, hlead⟩ := hret c hc i true (hall i)
    have hrest : ∀ n ∈ rest i, n ≠ dot ∧ n ≠ dotdot := fun n hn =>
      hdots i n (by simp [hnames i, hn])
    exact ⟨i, (hfrontier i).isMissingPrefix_append (hnames i) hrest hadds.grown hlead hr hp⟩
  · rintro ⟨i, hmiss⟩
    obtain ⟨-, e, j, hlead⟩ := hret c hc i true (hall i)
    exact (hfrontier i).new_of_isMissingPrefix (hnames i) (hdots i) hadds.grown hlead hmiss

theorem createDirectories_concurrent_bool :
    DoNotInterfere (fun _ : Bool => Env.ofCwd [])
      (fun b => if b then "a/b".toList else "a//c".toList) ⟨.rootOnly, 0⟩ := by
  apply createDirectories_concurrent _ _ _ (by decide) (by decide) (by decide)
  intro b u hu
  have h : Frontier FileSystem.rootOnly (Env.ofCwd []).symloopMax
      ((Env.ofCwd []).start (pathname (if b then "a/b".toList else "a//c".toList))) []
      (names (pathname (if b then "a/b".toList else "a//c".toList))) [] 40 := by
    refine ⟨⟨?_, ?_⟩, ?_⟩ <;> cases b <;> decide
  refine h.not_namesNonDirectory rfl ?_ hu
  cases b <;> decide

end RcppUtils
