import RcppUtils.Posix.CString

/-!
# Pathnames

A pathname starts at the root when its first character is a slash and at the working directory
otherwise, and goes through its names, the non-empty pieces between slashes. A trailing slash
asks for a directory: it counts as a last step to `.`.

## Main definitions

* `Name`, `Loc`: the names of directory entries, and locations from the root
* `IsName n`: the names that an entry may have
* `names s`, `Pathname.parse s`: the names of a pathname, and the pathname itself

## Main results

* `names_append_slash`: names are read off both sides of a slash
* `isName_of_mem_names`: the names of a C string are names of entries, `.` or `..`
-/

namespace Posix

/-- The name of a directory entry. -/
abbrev Name := List Char

/-- A location: the names leading to it from the root. -/
abbrev Loc := List Name

/-- The directory itself, as a step of a pathname. -/
def dot : Name := ['.']

/-- The parent directory, as a step of a pathname. -/
def dotdot : Name := ['.', '.']

@[simp] theorem dotdot_ne_dot : dotdot ≠ dot := by
  decide

@[simp] theorem nul_notMem_dot : nul ∉ dot := by
  decide

@[simp] theorem nul_notMem_dotdot : nul ∉ dotdot := by
  decide

/-- The name of an entry other than `.` and `..`. -/
structure IsName (n : Name) : Prop where
  ne_nil : n ≠ []
  slash_notMem : '/' ∉ n
  nul_notMem : nul ∉ n
  ne_dot : n ≠ dot
  ne_dotdot : n ≠ dotdot

instance (n : Name) : Decidable (IsName n) :=
  decidable_of_iff (n ≠ [] ∧ '/' ∉ n ∧ nul ∉ n ∧ n ≠ dot ∧ n ≠ dotdot)
    ⟨fun ⟨h₁, h₂, h₃, h₄, h₅⟩ => ⟨h₁, h₂, h₃, h₄, h₅⟩,
      fun ⟨h₁, h₂, h₃, h₄, h₅⟩ => ⟨h₁, h₂, h₃, h₄, h₅⟩⟩

/-! ## The names of a pathname -/

/-- The names of a pathname: its non-empty pieces between slashes. -/
def names (s : List Char) : List Name := (s.splitOn '/').filter (· ≠ [])

@[simp] theorem names_nil : names [] = [] := by
  simp [names]

/-- Names are read off both sides of a slash. -/
theorem names_append_slash (s t : List Char) : names (s ++ '/' :: t) = names s ++ names t := by
  simp [names, List.splitOn_append_cons_self]

theorem names_of_slash_notMem {s : List Char} (h : '/' ∉ s) :
    names s = if s = [] then [] else [s] := by
  by_cases hs : s = [] <;> simp [names, List.splitOn_eq_singleton h, hs]

/-- A slash in front adds no name. -/
theorem names_slash_cons (s : List Char) : names ('/' :: s) = names s := by
  simpa using names_append_slash [] s

/-- The characters of a piece are characters of the whole, and none is the separator. -/
theorem mem_of_mem_splitOn {d : Char} {s : List Char} {n : Name} (hn : n ∈ s.splitOn d) :
    d ∉ n ∧ ∀ c ∈ n, c ∈ s := by
  induction s generalizing n with
  | nil =>
    obtain rfl : n = [] := by simpa using hn
    simp
  | cons c s ih =>
    rw [List.splitOn_cons_eq_if_modifyHead] at hn
    split_ifs at hn with hc
    · -- a separator in front: the first piece is empty
      rcases List.mem_cons.mp hn with rfl | hn
      · simp
      · exact ⟨(ih hn).1, fun c' hc' => List.mem_cons_of_mem _ ((ih hn).2 c' hc')⟩
    · obtain ⟨m, ms, hms⟩ := List.exists_cons_of_ne_nil (List.splitOn_ne_nil d s)
      rw [hms, List.modifyHead_cons] at hn
      rcases List.mem_cons.mp hn with rfl | hn
      · obtain ⟨h₁, h₂⟩ := ih (hms ▸ List.mem_cons_self : m ∈ s.splitOn d)
        have hne : d ≠ c := fun e => hc (by simp [e])
        exact ⟨by simp [hne, h₁], List.forall_mem_cons.mpr
          ⟨List.mem_cons_self, fun c' hc' => List.mem_cons_of_mem _ (h₂ c' hc')⟩⟩
      · obtain ⟨h₁, h₂⟩ := ih (hms ▸ List.mem_cons_of_mem _ hn : n ∈ s.splitOn d)
        exact ⟨h₁, fun c' hc' => List.mem_cons_of_mem _ (h₂ c' hc')⟩

theorem slash_notMem_of_mem_names {s : List Char} {n : Name} (hn : n ∈ names s) : '/' ∉ n :=
  (mem_of_mem_splitOn (List.mem_filter.mp hn).1).1

theorem mem_of_mem_names {s : List Char} {n : Name} (hn : n ∈ names s) {c : Char} (hc : c ∈ n) :
    c ∈ s :=
  (mem_of_mem_splitOn (List.mem_filter.mp hn).1).2 c hc

theorem ne_nil_of_mem_names {s : List Char} {n : Name} (hn : n ∈ names s) : n ≠ [] := by
  simpa using (List.mem_filter.mp hn).2

/-- Every character but the slashes is in a name. -/
theorem exists_mem_names {s : List Char} {c : Char} (hc : c ∈ s) (hs : c ≠ '/') :
    ∃ n ∈ names s, c ∈ n := by
  induction s with
  | nil => cases hc
  | cons a s ih =>
    by_cases ha : a = '/'
    · subst ha
      rw [names_slash_cons]
      exact ih ((List.mem_cons.mp hc).resolve_left hs)
    obtain ⟨m, ms, hms⟩ := List.exists_cons_of_ne_nil (List.splitOn_ne_nil '/' s)
    have hsplit : (a :: s).splitOn '/' = (a :: m) :: ms := by
      simp [List.splitOn_cons_eq_if_modifyHead, ha, hms]
    have hnames : names (a :: s) = (a :: m) :: ms.filter (· ≠ []) := by
      rw [names, hsplit, List.filter_cons_of_pos (by simp)]
    rw [hnames]
    rcases List.mem_cons.mp hc with rfl | hc
    · exact ⟨_, List.mem_cons_self, List.mem_cons_self⟩
    · obtain ⟨n, hn, hcn⟩ := ih hc
      rw [names, hms] at hn
      rcases List.mem_cons.mp (List.mem_filter.mp hn).1 with rfl | hn'
      · exact ⟨_, List.mem_cons_self, List.mem_cons_of_mem _ hcn⟩
      · exact ⟨n, List.mem_cons_of_mem _ (List.mem_filter.mpr ⟨hn', (List.mem_filter.mp hn).2⟩),
          hcn⟩

/-- A pathname that begins with another character than a slash has a name. -/
theorem names_ne_nil {s : List Char} (hs : s ≠ []) (h : s.head? ≠ some '/') : names s ≠ [] := by
  obtain ⟨c, s, rfl⟩ := List.exists_cons_of_ne_nil hs
  have hc : c ≠ '/' := by simpa using h
  obtain ⟨m, ms, hms⟩ := List.exists_cons_of_ne_nil (List.splitOn_ne_nil '/' s)
  have hsplit : (c :: s).splitOn '/' = (c :: m) :: ms := by
    simp [List.splitOn_cons_eq_if_modifyHead, hc, hms]
  rw [names, hsplit, List.filter_cons_of_pos (by simp)]
  exact List.cons_ne_nil _ _

/-- A name of a C string is the name of an entry, `.` or `..`. -/
theorem isName_of_mem_names {s : List Char} (hs : nul ∉ s) {n : Name} (hn : n ∈ names s)
    (hd : n ≠ dot) (hdd : n ≠ dotdot) : IsName n :=
  ⟨ne_nil_of_mem_names hn, slash_notMem_of_mem_names hn,
    fun h => hs (mem_of_mem_names hn h), hd, hdd⟩

/-! ## Pathnames -/

/-- A pathname: whether it starts at the root, its names, and whether it ends in a slash. -/
structure Pathname where
  absolute : Bool
  names : List Name
  slash : Bool
  deriving DecidableEq

/-- The pathname written `s`. -/
def Pathname.parse (s : List Char) : Pathname where
  absolute := s.head? == some '/'
  names := Posix.names s
  slash := s.getLast? == some '/'

/-- The steps of a pathname that is followed to its end: a trailing slash is a last step to
`.`. -/
def Pathname.steps (p : Pathname) : List Name :=
  p.names ++ if p.slash then [dot] else []

end Posix
