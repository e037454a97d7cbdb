import RcppUtils.Filesystem.CreateDirectoriesConcurrent

/-!
# `create_directories` alone

Run alone, `create_directories` succeeds exactly when its path has a frontier, and makes the
missing prefixes then. A blocked path fails before anything was made: what is made is empty, so
nothing blocks the path behind the frontier.

## Main definitions

* `created env s w`: the result of a run and the state after it
* `MakesMissingPrefixes`: what a run returns and changes, and what a second run does

## Main results

* `run_makeAll_of_blocked`: a blocked path fails, and changes nothing
* `createDirectories_run`: when `create_directories` returns true, and what it changes
-/

namespace RcppUtils

open Posix Program

section Blocked

variable {env : Env} {w : World} {u last : List Char} {us : List (List Char)}

/-- The last test fails where the pathname names no directory. -/
theorem run_testDirectory_of_not (h : ∀ l, stat env w.fs u ≠ .ok (l, .directory)) :
    (testDirectory u).run (handler env) w = (false, w) := by
  have hcall : handler env (.stat u) w = ((stat env w.fs u).map Prod.snd, w) := rfl
  rw [testDirectory, run_call, hcall]
  cases hs : stat env w.fs u with
  | error e => rfl
  | ok r =>
    obtain ⟨l, kind⟩ := r
    have hkind : kind ≠ .directory := fun he => h l (he ▸ hs)
    simp [Except.map, hkind]

/-- A pathname is passed without a change where an entry exists. -/
theorem run_makeAll_cons_of_exists
    (h : (∃ r, stat env w.fs u = .ok r) ∨ mkdir env w.fs u = .error .eexist) :
    (makeAll last (u :: us)).run (handler env) w = (makeAll u us).run (handler env) w := by
  have hcall : handler env (.access u) w = ((stat env w.fs u).map fun _ => (), w) := rfl
  rw [makeAll, run_call, hcall]
  cases hs : stat env w.fs u with
  | ok r => rfl
  | error e =>
    have hm : mkdir env w.fs u = .error .eexist := h.resolve_left (by simp [hs])
    have hcall : handler env (.mkdir u) w = w.update (mkdir env w.fs u) := rfl
    simp only [Except.map, run_call, hcall, hm, World.update, if_true]

/-- A pathname ends the loop where `mkdir` fails. -/
theorem run_makeAll_cons_of_error {e e' : Errno} (hs : stat env w.fs u = .error e)
    (hm : mkdir env w.fs u = .error e') (he : e' ≠ .eexist) :
    (makeAll last (u :: us)).run (handler env) w = (false, w) := by
  have hcall : handler env (.access u) w = ((stat env w.fs u).map fun _ => (), w) := rfl
  have hcall' : handler env (.mkdir u) w = w.update (mkdir env w.fs u) := rfl
  rw [makeAll, run_call, hcall, hs]
  simp only [Except.map, run_call, hcall', hm, World.update, if_neg he, run_ret]

variable {cur d : Loc} {done rest N ns : List Name} {n m : Name} {k : ℕ} {a : Bool}

/-- Up to the blocking entry, every pathname names an entry. -/
theorem exists_of_blocked (h : Blocked w.fs env.symloopMax cur done n d k) (hu : u ≠ [])
    (hstart : env.start u = cur) (hp : names u <+: done ++ [n]) :
    (∃ r, stat env w.fs u = .ok r) ∨ mkdir env w.fs u = .error .eexist := by
  subst hstart
  rcases List.prefix_concat_iff.mp hp with hn | hp
  · right
    rw [mkdir_of_walk hu hn h.leads.walk h.leads.kind, if_pos (.inr (.inr h.kind_ne_none))]
  · left
    obtain ⟨d', k', hd⟩ := h.leads.of_prefix hp
    exact ⟨_, (stat_directory_iff_leads hu).mpr ⟨k', hd⟩⟩

/-- Behind the blocking entry, nothing is found and nothing can be made. -/
theorem error_of_blocked (h : Blocked w.fs env.symloopMax cur done n d k) (hu : u ≠ [])
    (hstart : env.start u = cur) (hn : names u = done ++ [n] ++ [m]) :
    (∃ e, stat env w.fs u = .error e) ∧ ∃ e, mkdir env w.fs u = .error e ∧ e ≠ .eexist := by
  subst hstart
  constructor
  · apply stat_eq_error
    intro r hr
    rw [hn] at hr
    obtain ⟨⟨d', k'⟩, hq, hstep⟩ := exists_walk_of_append hr
    obtain ⟨_, _, _, hop, -⟩ := Hop.of_walk hstep
    -- a walk goes on from directories only
    refine absurd ⟨hq, ?_⟩ (h.not_leads d' k')
    cases hop <;> assumption
  · cases hw : walk w.fs env.symloopMax (env.start u) (done ++ [n] ++ [dot]) with
    | error e =>
      refine ⟨e, atLast_of_error hu hn hw, ?_⟩
      intro he
      exact walk_ne_eexist _ _ _ (he ▸ hw)
    | ok q =>
      obtain ⟨hq, hdir⟩ := walk_concat_dot.mp hw
      exact absurd ⟨hq, hdir⟩ (h.not_leads q.1 q.2)

/-- **A blocked path fails, and nothing changes.** The induction is on the pathnames; `N` are
the names passed, up to the blocking entry. -/
theorem run_makeAll_of_blocked (h : Blocked w.fs env.symloopMax cur done n d k)
    (hstart : ∀ u, (Pathname.parse u).absolute = a → env.start u = cur)
    (hclimb : Climb a N ns us) (hT : N ++ ns = done ++ n :: rest) (hN : N <+: done ++ [n])
    (hlast : us = [] → Spells a N last) :
    (makeAll last us).run (handler env) w = (false, w) := by
  induction hclimb generalizing last with
  | @done N =>
    have hu := hlast rfl
    rw [List.append_nil] at hT
    -- all names are passed, so the blocking entry is the last
    have hlen := hN.length_le
    obtain rfl : rest = [] := by
      apply List.length_eq_zero_iff.mp
      simp only [hT, List.length_append, List.length_cons, List.length_nil] at hlen
      omega
    apply run_testDirectory_of_not
    intro l hl
    obtain ⟨j, hlead⟩ := (stat_directory_iff_leads hu.ne_nil).mp hl
    rw [hu.names, hstart _ hu.absolute, hT] at hlead
    exact h.not_leads l j hlead
  | @stay N ns u us hu _ ih =>
    have hex := exists_of_blocked h hu.ne_nil (hstart _ hu.absolute) (hu.names ▸ hN)
    rw [run_makeAll_cons_of_exists hex]
    exact ih hT hN fun _ => hu
  | @up N m ns u us hu _ ih =>
    have hT' : N ++ [m] ++ ns = done ++ n :: rest := by simpa using hT
    have hp : N ++ [m] <+: (done ++ [n]) ++ rest := ⟨ns, by simpa using hT⟩
    -- the next name lies in front of the blocking entry or right behind it
    rcases prefix_append_cases hp with hpre | ⟨r, rfl, -⟩
    · have hex := exists_of_blocked h hu.ne_nil (hstart _ hu.absolute) (hu.names ▸ hpre)
      rw [run_makeAll_cons_of_exists hex]
      exact ih hT' hpre fun _ => hu
    · obtain rfl : r = [] := by simpa using hN.length_le
      rw [List.append_nil] at hu
      obtain ⟨⟨e, hs⟩, e', hm, he⟩ := error_of_blocked h hu.ne_nil (hstart _ hu.absolute) hu.names
      exact run_makeAll_cons_of_error hs hm he

end Blocked

/-- A path without a C string fails, and nothing changes. -/
theorem run_createDirectories_of_nil {env : Env} {w : World} {s : StdString}
    (h : pathname s = []) :
    (createDirectories (.ofString .posix s)).run (handler env) w = (false, w) := by
  have hstat : stat env w.fs [] = .error .enoent := by simp [stat]
  have hmkdir : mkdir env w.fs [] = .error .enoent := by simp [mkdir, atLast]
  rw [createDirectories_eq]
  rcases built_of_cStr_eq_nil (Path.coherent_ofString s) h with hb | ⟨us, hb⟩
  · rw [hb, makeAll]
    exact run_testDirectory_of_not fun l => by simp [hstat]
  · rw [hb]
    exact run_makeAll_cons_of_error hstat hmkdir (by decide)

/-- A blocked path fails, and nothing changes. -/
theorem run_createDirectories_of_blocked {env : Env} {w : World} {s : StdString}
    (hs : pathname s ≠ []) {done rest : List Name} {n : Name} {d : Loc} {k : ℕ}
    (h : Blocked w.fs env.symloopMax (env.start (pathname s)) done n d k)
    (hn : names (pathname s) = done ++ n :: rest) :
    (createDirectories (.ofString .posix s)).run (handler env) w = (false, w) := by
  have hp := Path.coherent_ofString s
  rw [createDirectories_eq]
  exact run_makeAll_of_blocked h (fun u hu => start_eq_of_absolute_eq hu) (climb_built hp hs)
    ((List.nil_append _).trans hn) List.nil_prefix fun h => absurd h (built_ne_nil hp hs)

/-- A path that leads to a directory succeeds, and nothing changes. -/
theorem run_createDirectories_of_leads {env : Env} {w : World} {s : StdString}
    (hs : pathname s ≠ []) (hstart : w.fs.kind (env.start (pathname s)) = some .directory)
    {l : Loc} {k : ℕ}
    (h : Leads w.fs env.symloopMax (env.start (pathname s)) (names (pathname s)) l k) :
    (createDirectories (.ofString .posix s)).run (handler env) w = (true, w) := by
  -- no step changes anything, and each name leads to a directory
  have hready : Ready env Eq (env.start (pathname s)) (names (pathname s)) w := by
    rintro w' rfl N n l' k' hp -
    exact .inl (h.of_prefix hp)
  have hle : ∀ w w' : World, w = w' → w.fs ≤ w'.fs := fun _ _ he => he ▸ le_rfl
  obtain ⟨⟨htrue, -⟩, heq⟩ := (meets_createDirectories hle hs hstart hready).run
  exact Prod.ext htrue heq.symm

/-- The run of `create_directories(path(s))`. -/
def created (env : Env) (s : StdString) (w : World) : Bool × World :=
  (createDirectories (.ofString .posix s)).run (handler env) w

/-- `create_directories(path(s))` returns true exactly when the path is not empty and no prefix
of it names a non-directory. Then the path and all its prefixes name directories, every entry is
kept, the new entries are directories at the missing prefixes, and a second call returns true and
changes nothing; otherwise nothing changes. -/
structure MakesMissingPrefixes (env : Env) (s : StdString) (w : World) : Prop where
  returns_true_iff : (created env s w).1 = true ↔
    pathname s ≠ [] ∧ ∀ u, IsPathPrefix u (pathname s) → ¬ NamesNonDirectory env w.fs u
  directories : (created env s w).1 = true →
    NamesDirectories env (created env s w).2.fs (pathname s)
  grown : (created env s w).1 = true → w.fs.Grown (created env s w).2.fs
  new_iff : (created env s w).1 = true → ∀ l,
    w.fs.kind l = none ∧ (created env s w).2.fs.kind l ≠ none ↔
      IsMissingPrefix env w.fs (created env s w).2.fs (pathname s) l
  again : (created env s w).1 = true →
    created env s (created env s w).2 = (true, (created env s w).2)
  unchanged : (created env s w).1 = false → (created env s w).2 = w

/-- **What `create_directories` does when it runs alone.** -/
theorem createDirectories_run (env : Env) (w : World) (s : StdString)
    (hcwd : w.fs.kind env.cwd = some .directory)
    (hdots : ∀ n ∈ names (pathname s), n ≠ dot ∧ n ≠ dotdot) : MakesMissingPrefixes env s w := by
  by_cases hs : pathname s = []
  · have hr : created env s w = (false, w) := run_createDirectories_of_nil hs
    constructor <;> simp [hr, hs]
  have hstart := kind_start hcwd (pathname s)
  rcases frontier_or_blocked hstart env.symloopMax (names (pathname s)) with
    ⟨done, rest, d, k, hn, hfrontier⟩ | ⟨done, n, rest, d, k, hn, hblocked⟩
  · -- with a frontier the run is that of a caller among no others
    let A : Set Loc := {l | ∃ r, r ≠ [] ∧ r <+: rest ∧ l = d ++ r}
    have hready : Ready env (Adds A) (env.start (pathname s)) (names (pathname s)) w :=
      ready_of_frontier hfrontier hn hdots (nul_notMem_cStr _) fun r hr hp => ⟨r, hr, hp, rfl⟩
    have hmeets := meets_createDirectories (fun _ _ h => h.grown.le) hs hstart hready
    obtain ⟨⟨htrue, e, j, hlead⟩, hadds⟩ := hmeets.run
    constructor
    · exact iff_of_true htrue ⟨hs, fun u hu => hfrontier.not_namesNonDirectory hn hdots hu⟩
    · exact fun _ => namesDirectories_of_leads hlead
    · exact fun _ => hadds.grown
    · intro _ l
      constructor
      · rintro ⟨hold, hnew⟩
        obtain ⟨r, hr, hp, rfl⟩ := hadds.mem l hold hnew
        have hrest : ∀ n ∈ rest, n ≠ dot ∧ n ≠ dotdot := fun n hm => hdots n (by simp [hn, hm])
        exact hfrontier.isMissingPrefix_append hn hrest hadds.grown hlead hr hp
      · exact hfrontier.new_of_isMissingPrefix hn hdots hadds.grown hlead
    · exact fun _ => run_createDirectories_of_leads hs (hadds.grown.le _ _ hstart) hlead
    · exact fun h => absurd (htrue.symm.trans h) (by simp)
  · -- a blocked path has a prefix that names no directory
    obtain ⟨u, hu, hne⟩ := hblocked.exists_namesNonDirectory hn
    have hr : created env s w = (false, w) := run_createDirectories_of_blocked hs hblocked hn
    constructor
    · rw [hr]
      simpa using fun _ => ⟨u, hu, hne⟩
    all_goals simp [hr]

theorem createDirectories_run_slashes :
    MakesMissingPrefixes (Env.ofCwd []) "a//b/".toList ⟨.rootOnly, 0⟩ :=
  createDirectories_run _ _ _ (by decide) (by decide)

end RcppUtils
