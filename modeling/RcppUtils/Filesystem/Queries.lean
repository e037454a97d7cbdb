import RcppUtils.Path.Append
import RcppUtils.Posix.SystemCall

/-!
# Single calls on a path

The string of a path is passed to a call as a C string.

## Main definitions

* `Path.exists`, `Path.isDirectory`: the queries of the class
* `remove`: the removal of one entry

## Main results

* `names_withSeparator_append`, `names_append_of_slash_notMem`: the names of a joined string
* `Path.exists_eq_call`, `Path.isDirectory_eq_call`, `remove_eq_call`: each is one call and returns
  what its reply says
* `run_exists`, `run_isDirectory`, `run_remove`: the result of each and its effect
* `calls_exists`, `calls_isDirectory`, `calls_remove`: each makes one call
-/

namespace RcppUtils

open Posix Program

/-! ## Joined strings as pathnames -/

theorem nul_mem_withSeparator {u : StdString} :
    nul ∈ Path.withSeparator .posix u ↔ nul ∈ u := by
  unfold Path.withSeparator
  split_ifs <;> simp [kPreferredSeparator]

theorem names_withSeparator_append {u : StdString} (hu : u ≠ []) (c : StdString) :
    names (Path.withSeparator .posix u ++ c) = names u ++ names c := by
  rw [Path.withSeparator_of_ne_nil hu]
  split_ifs with hlast
  · obtain ⟨v, rfl⟩ := List.getLast?_eq_some_iff.mp hlast
    rw [List.append_assoc, List.singleton_append, names_append_slash, names_append_slash,
      names_nil, List.append_nil]
  · rw [List.append_assoc, List.singleton_append, names_append_slash]

/-- The last name of a string that goes on without a slash. -/
theorem names_append_of_slash_notMem (u : StdString) {v : StdString} (hv : v ≠ [])
    (hslash : '/' ∉ v) : ∃ ns n, names (u ++ v) = ns ++ [n ++ v] ∧ n <:+ u := by
  have hpiece : ∀ n, '/' ∉ n → names (n ++ v) = [n ++ v] := by
    intro n hn
    rw [names_of_slash_notMem (by simp [hn, hslash]), if_neg (by simp [hv])]
  by_cases hu : '/' ∈ u
  · obtain ⟨t, n, rfl, hn⟩ := exists_eq_append_last hu
    refine ⟨names t, n, ?_, ⟨t ++ ['/'], by simp⟩⟩
    rw [List.append_assoc, List.cons_append, names_append_slash, hpiece n hn]
  · exact ⟨[], u, hpiece u hu, List.suffix_rfl⟩

/-! ## The calls -/

/-- `path::exists()`. -/
def Path.exists (p : Path) : SysProgram Bool := do
  match ← SysProgram.access (cStr p.path) with
  | .ok _ => return true
  | .error _ => return false

/-- `path::is_directory()`. -/
def Path.isDirectory (p : Path) : SysProgram Bool := do
  match ← SysProgram.stat (cStr p.path) with
  | .error _ => return false
  | .ok kind => return kind = .directory

/-- `remove(p)` on the POSIX build. -/
def remove (p : Path) : SysProgram Bool := do
  match ← SysProgram.remove (cStr p.path) with
  | .ok _ => return true
  | .error _ => return false

/-! ## Replies -/

theorem Path.exists_eq_call (p : Path) :
    p.exists = Program.call (.access (cStr p.path))
      fun reply : Except Errno Unit => Program.ret reply.toBool := by
  refine congrArg (Program.call _) (funext fun reply : Except Errno Unit => ?_)
  cases reply <;> rfl

theorem Path.isDirectory_eq_call (p : Path) :
    p.isDirectory = Program.call (.stat (cStr p.path))
      fun reply : Except Errno Kind =>
        Program.ret (decide (reply.toOption = some .directory)) := by
  refine congrArg (Program.call _) (funext fun reply : Except Errno Kind => ?_)
  rcases reply with _ | _ | _ | _ <;> rfl

theorem remove_eq_call (p : Path) :
    remove p = Program.call (.remove (cStr p.path))
      fun reply : Except Errno Unit => Program.ret reply.toBool := by
  refine congrArg (Program.call _) (funext fun reply : Except Errno Unit => ?_)
  cases reply <;> rfl

/-! ## Runs -/

/-- The pathname `u` names a directory, symbolic links followed. -/
def namesDirectory (env : Env) (fs : FileSystem) (u : List Char) : Bool :=
  match stat env fs u with
  | .ok (_, .directory) => true
  | _ => false

theorem namesDirectory_iff {env : Env} {fs : FileSystem} {u : List Char} :
    namesDirectory env fs u = true ↔ ∃ l, stat env fs u = .ok (l, .directory) := by
  rw [namesDirectory]
  cases hs : stat env fs u with
  | error e => simp
  | ok r =>
    obtain ⟨l, kind⟩ := r
    cases kind <;> simp

section Run

variable (env : Env) (w : World) (p : Path)

theorem run_exists :
    p.exists.run (handler env) w = ((stat env w.fs (cStr p.path)).toBool, w) := by
  have hrun : p.exists.run (handler env) w =
      (((stat env w.fs (cStr p.path)).map fun _ => ()).toBool, w) := by
    rw [Path.exists_eq_call]
    rfl
  rw [hrun]
  cases stat env w.fs (cStr p.path) <;> rfl

theorem calls_exists :
    p.exists.calls (handler env) w = [(.access (cStr p.path), w)] := by
  rw [Path.exists_eq_call]
  rfl

theorem run_isDirectory :
    p.isDirectory.run (handler env) w = (namesDirectory env w.fs (cStr p.path), w) := by
  have hrun : p.isDirectory.run (handler env) w =
      (decide (((stat env w.fs (cStr p.path)).map Prod.snd).toOption = some .directory), w) := by
    rw [Path.isDirectory_eq_call]
    rfl
  rw [hrun, namesDirectory]
  rcases stat env w.fs (cStr p.path) with _ | ⟨_, _ | _ | _⟩ <;> rfl

theorem calls_isDirectory :
    p.isDirectory.calls (handler env) w = [(.stat (cStr p.path), w)] := by
  rw [Path.isDirectory_eq_call]
  rfl

theorem run_remove :
    (remove p).run (handler env) w =
      ((w.update (Posix.remove env w.fs (cStr p.path))).1.toBool,
        (w.update (Posix.remove env w.fs (cStr p.path))).2) := by
  rw [remove_eq_call]
  rfl

theorem run_remove_of_ok {fs : FileSystem} (h : Posix.remove env w.fs (cStr p.path) = .ok fs) :
    (remove p).run (handler env) w = (true, { w with fs := fs }) := by
  rw [run_remove, h]
  rfl

theorem run_remove_of_error {e : Errno} (h : Posix.remove env w.fs (cStr p.path) = .error e) :
    (remove p).run (handler env) w = (false, w) := by
  rw [run_remove, h]
  rfl

theorem calls_remove :
    (remove p).calls (handler env) w = [(.remove (cStr p.path), w)] := by
  rw [remove_eq_call]
  rfl

end Run

end RcppUtils
