import RcppUtils.Path.Append
import RcppUtils.Posix.SearchPath

/-!
# Finding libraries

`find_library_path` looks for a library in the directories of a search path, and
`path_for_library` in one directory. The first puts a slash behind the directory, the second joins
with the standard library. The file system does not change during a call, and the build is the one
for Linux.

## Main definitions

* `findLibraryPath`, `pathForLibrary`: the two lookups
* `LookupsAgree`: the first lookup finds what the second finds first
* `AgreesAtEmpty`: what the empty directory of the search path asks for

## Main results

* `lookUp_eq_lookUpStd`: the two strings name the same file, unless the directory is empty
* `fileAt_findLibraryPath`: the first lookup finds what is found first
* `lookupsAgree_iff`: when the lookups agree
-/

namespace RcppUtils

open Posix

def kPathSeparator : Char := ':'

def kSolibPrefix : StdString := "lib".toList

def kSolibExtension : StdString := ".so".toList

/-- `filename_for_library(library_name)`. -/
def filenameForLibrary (libraryName : StdString) : StdString :=
  kSolibPrefix ++ libraryName ++ kSolibExtension

section Lookups

variable (env : Env) (fs : FileSystem)

/-- The regular file that the string of a path resolves to. -/
def fileAt (path : StdString) : Option Loc := regularFile env fs (cStr path)

/-- `rcutils_is_file(path.c_str())`. -/
def rcutilsIsFile (path : StdString) : Bool := (fileAt env fs path).isSome

/-- `std::filesystem::is_regular_file(path)`. -/
def isRegularFile (path : StdString) : Bool := (fileAt env fs path).isSome

/-- The loop of `find_library_path`. -/
def findLibraryLoop (filename : StdString) : List StdString → StdString
  | [] => []
  | searchPath :: searchPaths =>
    if rcutilsIsFile env fs (searchPath ++ '/' :: filename) then searchPath ++ '/' :: filename
    else findLibraryLoop filename searchPaths

/-- `find_library_path(library_name)`, where `get_env_var` returns `value`. -/
def findLibraryPath (value libraryName : StdString) : StdString :=
  findLibraryLoop env fs (filenameForLibrary libraryName) (split value kPathSeparator false)

/-- `path_for_library(directory, library_name)`. -/
def pathForLibrary (directory libraryName : StdString) : StdString :=
  if isRegularFile env fs (Path.stdAppend directory (filenameForLibrary libraryName)) then
    Path.stdAppend directory (filenameForLibrary libraryName)
  else []

/-- The first lookup finds a library if and only if the second does in some directory of the search
path, and then the two strings resolve to the same file in the first such directory. -/
structure LookupsAgree (value libraryName : StdString) : Prop where
  found : findLibraryPath env fs value libraryName ≠ [] ↔
    ∃ d ∈ split value kPathSeparator false, pathForLibrary env fs d libraryName ≠ []
  same : ∀ d, (split value kPathSeparator false).find?
      (fun d => pathForLibrary env fs d libraryName ≠ []) = some d →
    fileAt env fs (findLibraryPath env fs value libraryName) =
      fileAt env fs (pathForLibrary env fs d libraryName)

/-- The file that the first lookup finds in a directory. -/
def lookUp (libraryName directory : StdString) : Option Loc :=
  fileAt env fs (directory ++ '/' :: filenameForLibrary libraryName)

/-- The file that the second lookup finds in a directory. -/
def lookUpStd (libraryName directory : StdString) : Option Loc :=
  fileAt env fs (Path.stdAppend directory (filenameForLibrary libraryName))

/-- What the search path and the files ask for, where a directory of the search path is empty: a
directory before it has the library; or the file is the same, if any, in the root and in the
working directory; or only one of these has it, and it is the first file that the other directories
have. -/
def AgreesAtEmpty (value libraryName : StdString) : Prop :=
  (∃ d ∈ (split value kPathSeparator false).takeWhile (· ≠ []),
      lookUp env fs libraryName d ≠ none) ∨
    fileAt env fs ('/' :: filenameForLibrary libraryName) =
      fileAt env fs (filenameForLibrary libraryName) ∨
    (fileAt env fs ('/' :: filenameForLibrary libraryName) = none ∨
        fileAt env fs (filenameForLibrary libraryName) = none) ∧
      ((split value kPathSeparator false).filter (· ≠ [])).findSome? (lookUp env fs libraryName) =
        (fileAt env fs ('/' :: filenameForLibrary libraryName)).or
          (fileAt env fs (filenameForLibrary libraryName))

end Lookups

variable {env : Env} {fs : FileSystem}

/-! ## One directory -/

@[simp] theorem fileAt_nil : fileAt env fs [] = none := by
  simp [fileAt, cStr]

theorem filenameForLibrary_eq_cons (libraryName : StdString) :
    ∃ f, filenameForLibrary libraryName = 'l' :: f :=
  ⟨"ib".toList ++ libraryName ++ kSolibExtension, rfl⟩

theorem cStr_filenameForLibrary_ne_nil (libraryName : StdString) :
    cStr (filenameForLibrary libraryName) ≠ [] := by
  obtain ⟨f, hf⟩ := filenameForLibrary_eq_cons libraryName
  rw [hf]
  simp [cStr, nul]

theorem stdAppend_filenameForLibrary (directory libraryName : StdString) :
    Path.stdAppend directory (filenameForLibrary libraryName) =
      if directory = [] ∨ directory.getLast? = some '/' then
        directory ++ filenameForLibrary libraryName
      else directory ++ '/' :: filenameForLibrary libraryName := by
  obtain ⟨f, hf⟩ := filenameForLibrary_eq_cons libraryName
  rw [Path.stdAppend, hf, if_neg (by simp)]

/-- The two strings differ by a second slash, behind a directory that ends in one. -/
theorem fileAt_slash_slash (directory libraryName : StdString) :
    fileAt env fs (directory ++ '/' :: '/' :: filenameForLibrary libraryName) =
      fileAt env fs (directory ++ '/' :: filenameForLibrary libraryName) := by
  have hslash : ∀ s, cStr ('/' :: s) = '/' :: cStr s := fun s => by simp [cStr, nul]
  rw [fileAt, fileAt]
  by_cases hnul : nul ∈ directory
  · rw [cStr_append_of_mem hnul, cStr_append_of_mem hnul]
  · rw [cStr_append_of_notMem hnul, cStr_append_of_notMem hnul, hslash, hslash, regularFile,
      regularFile, stat_slash_slash directory (cStr_filenameForLibrary_ne_nil libraryName)]

/-- **The two strings name the same file**, unless the directory is empty. -/
theorem lookUp_eq_lookUpStd (libraryName : StdString) {d : StdString} (hd : d ≠ []) :
    lookUp env fs libraryName d = lookUpStd env fs libraryName d := by
  rw [lookUp, lookUpStd, stdAppend_filenameForLibrary]
  split_ifs with h
  · obtain ⟨u, rfl⟩ := List.getLast?_eq_some_iff.mp (h.resolve_left hd)
    rw [List.append_assoc, List.append_assoc, List.singleton_append, List.singleton_append,
      fileAt_slash_slash]
  · rfl

theorem fileAt_pathForLibrary (libraryName d : StdString) :
    fileAt env fs (pathForLibrary env fs d libraryName) = lookUpStd env fs libraryName d := by
  rw [pathForLibrary, isRegularFile, lookUpStd]
  split_ifs with h
  · rfl
  · rw [fileAt_nil, eq_comm, ← Option.not_isSome_iff_eq_none]
    exact h

theorem pathForLibrary_ne_nil_iff (libraryName d : StdString) :
    pathForLibrary env fs d libraryName ≠ [] ↔ lookUpStd env fs libraryName d ≠ none := by
  rw [← fileAt_pathForLibrary]
  constructor
  · intro h
    rw [pathForLibrary] at h ⊢
    split_ifs at h ⊢ with hfile
    · exact Option.isSome_iff_ne_none.mp hfile
    · exact absurd rfl h
  · rintro h hnil
    exact h (hnil ▸ fileAt_nil)

/-! ## The search path -/

/-- The loop finds what is found first. -/
theorem fileAt_findLibraryLoop (libraryName : StdString) (searchPaths : List StdString) :
    fileAt env fs (findLibraryLoop env fs (filenameForLibrary libraryName) searchPaths) =
      searchPaths.findSome? (lookUp env fs libraryName) := by
  induction searchPaths with
  | nil => exact fileAt_nil
  | cons d ds ih =>
    rw [findLibraryLoop, rcutilsIsFile, List.findSome?_cons, ← lookUp]
    cases h : lookUp env fs libraryName d with
    | none => exact ih
    | some l => exact h

/-- A string that the loop returns resolves to a file, unless it is empty. -/
theorem findLibraryLoop_ne_nil_iff (filename : StdString) (searchPaths : List StdString) :
    findLibraryLoop env fs filename searchPaths ≠ [] ↔
      fileAt env fs (findLibraryLoop env fs filename searchPaths) ≠ none := by
  constructor
  · intro h
    induction searchPaths with
    | nil => exact absurd rfl h
    | cons d ds ih =>
      rw [findLibraryLoop] at h ⊢
      split_ifs at h ⊢ with hfile
      · exact Option.isSome_iff_ne_none.mp hfile
      · exact ih h
  · rintro h hnil
    exact h (hnil ▸ fileAt_nil)

/-- **The first lookup finds what is found first.** -/
theorem fileAt_findLibraryPath (value libraryName : StdString) :
    fileAt env fs (findLibraryPath env fs value libraryName) =
      (split value kPathSeparator false).findSome? (lookUp env fs libraryName) :=
  fileAt_findLibraryLoop libraryName _

theorem findLibraryPath_ne_nil_iff (value libraryName : StdString) :
    findLibraryPath env fs value libraryName ≠ [] ↔
      (split value kPathSeparator false).findSome? (lookUp env fs libraryName) ≠ none := by
  rw [findLibraryPath, findLibraryLoop_ne_nil_iff, fileAt_findLibraryLoop]

/-- What the second lookup finds first. -/
theorem findSome?_lookUpStd (libraryName : StdString) (ds : List StdString) :
    ds.findSome? (lookUpStd env fs libraryName) =
      (ds.find? fun d => pathForLibrary env fs d libraryName ≠ []).bind
        (lookUpStd env fs libraryName) := by
  simp only [findSome?_eq_bind_find?, pathForLibrary_ne_nil_iff]

/-- The lookups agree when both search the path alike. -/
theorem lookupsAgree_iff_findSome? (value libraryName : StdString) :
    LookupsAgree env fs value libraryName ↔
      (split value kPathSeparator false).findSome? (lookUp env fs libraryName) =
        (split value kPathSeparator false).findSome? (lookUpStd env fs libraryName) := by
  constructor
  · rintro ⟨hfound, hsame⟩
    cases hfirst : (split value kPathSeparator false).find?
        fun d => pathForLibrary env fs d libraryName ≠ [] with
    | none =>
      -- neither lookup finds anything
      have hnone : ¬∃ d ∈ split value kPathSeparator false,
          pathForLibrary env fs d libraryName ≠ [] := by
        simpa using hfirst
      rw [← hfound, not_not] at hnone
      rw [← fileAt_findLibraryPath, hnone, fileAt_nil, findSome?_lookUpStd, hfirst,
        Option.bind_none]
    | some d =>
      rw [← fileAt_findLibraryPath, hsame d hfirst, fileAt_pathForLibrary, findSome?_lookUpStd,
        hfirst, Option.bind_some]
  · intro h
    constructor
    · rw [findLibraryPath_ne_nil_iff, h, ne_eq, List.findSome?_eq_none_iff]
      simp only [pathForLibrary_ne_nil_iff, not_forall, exists_prop]
    · intro d hfirst
      rw [fileAt_findLibraryPath, h, findSome?_lookUpStd, hfirst, Option.bind_some,
        fileAt_pathForLibrary]

/-- **When the lookups agree**: no directory of the search path is empty, or what the empty one asks
for is the same. -/
theorem lookupsAgree_iff (env : Env) (fs : FileSystem) (value libraryName : StdString) :
    LookupsAgree env fs value libraryName ↔
      [] ∉ split value kPathSeparator false ∨ AgreesAtEmpty env fs value libraryName := by
  have hstd : lookUpStd env fs libraryName [] = fileAt env fs (filenameForLibrary libraryName) := by
    rw [lookUpStd, stdAppend_filenameForLibrary, if_pos (.inl rfl), List.nil_append]
  rw [lookupsAgree_iff_findSome?,
    findSome?_eq_findSome?_iff fun d hd => lookUp_eq_lookUpStd libraryName hd, hstd]
  rfl

/-- The root has the library `x`, and the working directory has none. -/
def rootLibrary : FileSystem where
  nodes := ((AList.singleton [] .directory).insert [['h']] .directory).insert ["libx.so".toList]
    .regular
  root := by decide
  parent := by decide
  isName := by decide

/-- The search path of one empty directory finds the library in the root. -/
theorem not_lookupsAgree_rootLibrary :
    ¬LookupsAgree (Env.ofCwd [['h']]) rootLibrary [':'] ['x'] := by
  intro h
  have hfound := h.found
  revert hfound
  decide

end RcppUtils
