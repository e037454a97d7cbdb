import RcppUtils.Text.Split

/-!
# The class `rcpputils::fs::path`

A path stores its string and the components of the string side by side, and every operation
updates the two on its own. The operations are those of the build for one platform; an operation
that takes an iterator before the first component is undefined, and returns `none` here.

## Main definitions

* `Platform`, `kPreferredSeparator`: the two builds, and the separator of each
* `Path`, `Path.ofString`: the class, and its constructor from a string
* `Path.append`: `operator/=` and `operator/`
* `Path.parentPath`, `Path.filename`, `Path.extension`, `Path.removeExtension`: the parts of a
  path
-/

namespace RcppUtils

/-- The platform of a build. -/
inductive Platform
  | posix | win32
  deriving DecidableEq

/-- `kPreferredSeparator`. -/
def kPreferredSeparator : Platform → Char
  | .posix => '/'
  | .win32 => '\\'

/-- `std::replace` on the characters of a string. -/
def stdReplace (s : StdString) (old new : Char) : StdString :=
  s.map fun c => if c = old then new else c

/-- The class `path`: `path_` and `path_as_vector_`. -/
structure Path where
  path : StdString
  pathAsVector : List StdString
  deriving DecidableEq

/-- `path()`. -/
instance : Inhabited Path := ⟨⟨[], []⟩⟩

/-- `is_absolute_with_drive_letter(path)`. -/
def isAbsoluteWithDriveLetter (os : Platform) (path : StdString) : Bool :=
  match os with
  | .posix => false
  | .win32 => if path = [] then false else (path.drop 1).take 2 == [':', '\\']

namespace Path

variable (os : Platform)

/-- The constructor from a string. -/
def ofString (p : StdString) : Path :=
  let path := stdReplace (stdReplace p '\\' (kPreferredSeparator os)) '/' (kPreferredSeparator os)
  { path := path, pathAsVector := split path (kPreferredSeparator os) false }

/-- `is_absolute()`. -/
def isAbsolute (p : Path) : Bool :=
  match p.path with
  | [] => false
  | c :: _ => c == kPreferredSeparator os || isAbsoluteWithDriveLetter os p.path

/-- The string to append to: a separator is added unless the string ends in one. -/
def withSeparator (path : StdString) : StdString :=
  if path = [] ∨ path.getLast? ≠ some (kPreferredSeparator os) then
    path ++ [kPreferredSeparator os]
  else path

/-- `operator/=`, and `operator/` on a copy of the left operand. -/
def append (p other : Path) : Path :=
  if other.isAbsolute os then { path := other.path, pathAsVector := other.pathAsVector }
  else
    { path := withSeparator os p.path ++ other.path
      pathAsVector := p.pathAsVector ++ other.pathAsVector }

/-- One round of the loop of `parent_path()`. -/
def parentStep (p parent : Path) (it : StdString) : Path :=
  if parent.path = [] ∧ (!p.isAbsolute os || isAbsoluteWithDriveLetter os p.path) then
    ofString os it
  else parent.append os (ofString os it)

/-- `parent_path()`. -/
def parentPath (p : Path) : Option Path :=
  if p.path = [] then some (ofString os [])
  else
    match p.pathAsVector with
    -- `--cend()` steps before the first component
    | [] => none
    | [it] =>
      if p.isAbsolute os then
        if isAbsoluteWithDriveLetter os p.path then
          some (ofString os (it ++ [kPreferredSeparator os]))
        else some (ofString os [kPreferredSeparator os])
      else some (ofString os ['.'])
    | it :: its =>
      if its.length = 1 ∧ isAbsoluteWithDriveLetter os p.path then
        some (ofString os (it ++ [kPreferredSeparator os]))
      else some ((it :: its).dropLast.foldl (parentStep os p) default)

/-- `filename()`. -/
def filename (p : Path) : Option Path :=
  if p.path = [] then some default else p.pathAsVector.getLast?.map (ofString os)

/-- `extension()`. -/
def extension (p : Path) : Option Path :=
  let splitFname := split p.path '.' false
  if splitFname.length = 1 then some (ofString os [])
  else splitFname.getLast?.map fun back => ofString os ('.' :: back)

/-- `std::string::find_last_of` for one character. -/
def findLastOf (s : StdString) (c : Char) : Option ℕ :=
  (s.reverse.idxOf? c).map fun i => s.length - 1 - i

/-- `n` rounds of the loop of `remove_extension`. -/
def removeExtensionLoop : ℕ → Path → Path
  | 0, newPath => newPath
  | n + 1, newPath =>
    match findLastOf newPath.path '.' with
    | none => newPath
    | some lastDot => removeExtensionLoop n (ofString os (newPath.path.take lastDot))

/-- `remove_extension(file_path, n_times)`. -/
def removeExtension (filePath : Path) (nTimes : ℤ) : Path :=
  removeExtensionLoop os nTimes.toNat filePath

/-- `operator==`. -/
def equal (a b : Path) : Bool := a.path == b.path

end Path

end RcppUtils
