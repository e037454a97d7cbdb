import Mathlib.Data.List.AList
import Mathlib.Data.List.Infix
import RcppUtils.Posix.Pathname

/-!
# File systems

A file system is a finite tree of directories, regular files and symbolic links, given by the
node at each location. Every node lies in a directory, the root is one, and the names leading
to a node are names of entries; the structure carries the proofs, and the updates that would
break them do nothing.

## Main definitions

* `Kind`, `FileSystem`, `FileSystem.kind`: nodes, trees of nodes, and the node at a location
* `FileSystem.children`: the names of the entries of a directory
* `FileSystem.addDirectory`, `FileSystem.erase`: a new directory, and a removed leaf
* `FileSystem.addDirectories`: new directories, each in the one before
* `fs ≤ fs'`, `FileSystem.Grown fs fs'`: more nodes, and more nodes that are directories

## Main results

* `FileSystem.kind_of_prefix`: what lies above a node is a directory
* `FileSystem.kind_addDirectory`, `FileSystem.kind_erase`: the nodes after an update
* `FileSystem.grown_addDirectory`, `FileSystem.erase_le`: updates in the two orders
* `FileSystem.kind_addDirectories`, `FileSystem.exists_of_kind_addDirectories`: where the new
  directories are
-/

namespace Posix

/-- The kinds of nodes. -/
inductive Kind
  | directory
  | regular
  | symlink (target : List Char)
  deriving DecidableEq

/-- A finite tree of nodes. -/
structure FileSystem where
  nodes : AList fun _ : Loc => Kind
  root : nodes.lookup [] = some .directory
  parent : ∀ l ∈ nodes.keys, nodes.lookup l.dropLast = some .directory
  isName : ∀ l ∈ nodes.keys, ∀ n ∈ l, IsName n

namespace FileSystem

variable (fs : FileSystem)

/-- The node at a location. -/
def kind (l : Loc) : Option Kind := fs.nodes.lookup l

/-- The names of the entries of a directory. -/
def children (l : Loc) : List Name :=
  fs.nodes.keys.filterMap fun k => if k ≠ [] ∧ k.dropLast = l then k.getLast? else none

variable {fs}

theorem kind_eq_none {l : Loc} : fs.kind l = none ↔ l ∉ fs.nodes.keys :=
  AList.lookup_eq_none

theorem mem_keys {l : Loc} : l ∈ fs.nodes.keys ↔ fs.kind l ≠ none := by
  rw [ne_eq, kind_eq_none, not_not]

theorem kind_eq_some {l : Loc} {k : Kind} : fs.kind l = some k ↔ ⟨l, k⟩ ∈ fs.nodes.entries :=
  AList.mem_lookup_iff

@[simp] theorem kind_root : fs.kind [] = some .directory := fs.root

/-- A node lies in a directory. -/
theorem kind_dropLast {l : Loc} (h : fs.kind l ≠ none) : fs.kind l.dropLast = some .directory :=
  fs.parent l (mem_keys.mpr h)

theorem kind_parent {d : Loc} {n : Name} (h : fs.kind (d ++ [n]) ≠ none) :
    fs.kind d = some .directory := by
  simpa using kind_dropLast h

/-- What lies above a node is a directory. -/
theorem kind_of_prefix {d l : Loc} (hl : fs.kind l ≠ none) (h : d <+: l) (hne : d ≠ l) :
    fs.kind d = some .directory := by
  induction l using List.reverseRecOn with
  | nil => exact absurd (List.prefix_nil.mp h) hne
  | append_singleton l n ih =>
    have hp := kind_parent hl
    rcases List.prefix_concat_iff.mp h with rfl | h
    · exact absurd rfl hne
    · by_cases he : d = l
      · exact he ▸ hp
      · exact ih (by simp [hp]) h he

theorem isName_of_kind {l : Loc} (h : fs.kind l ≠ none) {n : Name} (hn : n ∈ l) : IsName n :=
  fs.isName l (mem_keys.mpr h) n hn

theorem isName_of_kind_concat {d : Loc} {n : Name} (h : fs.kind (d ++ [n]) ≠ none) : IsName n :=
  isName_of_kind h (by simp)

theorem mem_children {d : Loc} {n : Name} : n ∈ fs.children d ↔ fs.kind (d ++ [n]) ≠ none := by
  rw [← mem_keys, children, List.mem_filterMap]
  constructor
  · rintro ⟨k, hk, h⟩
    split_ifs at h with hd
    obtain ⟨hne, rfl⟩ := hd
    rwa [List.dropLast_append_getLast? n h]
  · intro h
    exact ⟨d ++ [n], h, by simp⟩

theorem nodup_children (d : Loc) : (fs.children d).Nodup := by
  apply fs.nodes.keys_nodup.filterMap
  intro k k' n hk hk'
  simp only [Option.mem_def] at hk hk'
  split_ifs at hk hk' with h h'
  rw [← List.dropLast_append_getLast? n hk, ← List.dropLast_append_getLast? n hk', h.2, h'.2]

theorem children_eq_nil {l : Loc} (h : fs.kind l ≠ some .directory) : fs.children l = [] :=
  List.eq_nil_iff_forall_not_mem.mpr fun _ hn => h (kind_parent (mem_children.mp hn))

/-- The file system with no entry. -/
def rootOnly : FileSystem where
  nodes := AList.singleton [] .directory
  root := by decide
  parent := by decide
  isName := by decide

theorem kind_rootOnly (l : Loc) : rootOnly.kind l = if l = [] then some .directory else none := by
  split_ifs with h
  · exact h ▸ kind_root
  · rw [kind_eq_none]
    simpa [rootOnly] using h

/-! ## Updates -/

variable (fs)

/-- A new empty directory `n` in the directory `d`. -/
def addDirectory (d : Loc) (n : Name) : FileSystem :=
  if h : fs.kind d = some .directory ∧ fs.kind (d ++ [n]) = none ∧ IsName n then
    { nodes := fs.nodes.insert (d ++ [n]) .directory
      root := by
        rw [AList.lookup_insert_ne (by simp)]
        exact fs.root
      parent := by
        intro l hl
        rcases (AList.mem_insert _).mp hl with rfl | hl
        · -- the new node lies in `d`
          rw [List.dropLast_concat, AList.lookup_insert_ne (by simp)]
          exact h.1
        · -- an old node lies in an old directory, which is not the new node
          have hl' := fs.parent l hl
          rw [AList.lookup_insert_ne fun e => ?_]
          · exact hl'
          · exact absurd (e ▸ hl') (by simpa [kind] using h.2.1 ▸ Option.some_ne_none _ |>.symm)
      isName := by
        intro l hl
        rcases (AList.mem_insert _).mp hl with rfl | hl
        · intro m hm
          rcases List.mem_append.mp hm with hm | hm
          · have hd : fs.kind d ≠ none := by simp [h.1]
            exact isName_of_kind hd hm
          · exact List.mem_singleton.mp hm ▸ h.2.2
        · exact fs.isName l hl }
  else fs

/-- The file system without the node at `l`, when nothing lies below it. -/
def erase (l : Loc) : FileSystem :=
  if h : l ≠ [] ∧ fs.children l = [] then
    { nodes := fs.nodes.erase l
      root := by
        rw [AList.lookup_erase_ne h.1.symm]
        exact fs.root
      parent := by
        intro k hk
        obtain ⟨hne, hk⟩ := AList.mem_erase.mp hk
        rw [AList.lookup_erase_ne fun e => ?_]
        · exact fs.parent k hk
        · -- a node in the removed directory would be an entry of it
          rcases List.eq_nil_or_concat k with rfl | ⟨d, n, rfl⟩
          · exact h.1 (by simpa using e.symm)
          · obtain rfl : d = l := by simpa using e
            have hn : n ∈ fs.children d := mem_children.mpr (mem_keys.mp (by simpa using hk))
            simp [h.2] at hn
      isName := fun k hk => fs.isName k (AList.mem_erase.mp hk).2 }
  else fs

variable {fs}

theorem kind_addDirectory {d : Loc} {n : Name} (hd : fs.kind d = some .directory)
    (hn : fs.kind (d ++ [n]) = none) (hname : IsName n) (l : Loc) :
    (fs.addDirectory d n).kind l = if l = d ++ [n] then some .directory else fs.kind l := by
  rw [addDirectory, dif_pos ⟨hd, hn, hname⟩]
  split_ifs with h
  · exact h ▸ AList.lookup_insert _
  · exact AList.lookup_insert_ne h

/-- A new directory changes the node at its location only, and that one was free. -/
theorem kind_addDirectory_cases (d : Loc) (n : Name) (l : Loc) :
    (fs.addDirectory d n).kind l = fs.kind l ∨
      l = d ++ [n] ∧ fs.kind l = none ∧ (fs.addDirectory d n).kind l = some .directory := by
  by_cases h : fs.kind d = some .directory ∧ fs.kind (d ++ [n]) = none ∧ IsName n
  · obtain ⟨hd, hn, hname⟩ := h
    rw [kind_addDirectory hd hn hname]
    split_ifs with hl
    · exact .inr ⟨hl, hl ▸ hn, rfl⟩
    · exact .inl rfl
  · left
    rw [addDirectory, dif_neg h]

theorem kind_erase {l : Loc} (hl : l ≠ []) (hc : fs.children l = []) (k : Loc) :
    (fs.erase l).kind k = if k = l then none else fs.kind k := by
  rw [erase, dif_pos ⟨hl, hc⟩]
  split_ifs with h
  · exact h ▸ AList.lookup_erase _ _
  · exact AList.lookup_erase_ne h

/-! ## More and fewer nodes -/

/-- Every node of the first file system is a node of the second. -/
instance : Preorder FileSystem where
  le fs fs' := ∀ l k, fs.kind l = some k → fs'.kind l = some k
  le_refl _ _ _ h := h
  le_trans _ _ _ h h' l k hl := h' l k (h l k hl)

theorem kind_ne_none_of_le {fs' : FileSystem} (hle : fs' ≤ fs) {l : Loc} (h : fs'.kind l ≠ none) :
    fs.kind l ≠ none := by
  obtain ⟨k, hk⟩ := Option.ne_none_iff_exists'.mp h
  simp [hle l k hk]

/-- The second file system has the nodes of the first, and directories besides. -/
structure Grown (fs fs' : FileSystem) : Prop where
  le : fs ≤ fs'
  directory_of_none : ∀ l, fs.kind l = none → fs'.kind l ≠ none → fs'.kind l = some .directory

instance : Std.Refl Grown := ⟨fun _ => ⟨le_rfl, fun _ h h' => absurd h h'⟩⟩

instance : IsTrans FileSystem Grown where
  trans fs fs' fs'' h h' := by
    refine ⟨h.le.trans h'.le, ?_⟩
    intro l hl hl''
    by_cases hl' : fs'.kind l = none
    · exact h'.directory_of_none l hl' hl''
    · exact h'.le l _ (h.directory_of_none l hl hl')

theorem grown_addDirectory (d : Loc) (n : Name) : fs.Grown (fs.addDirectory d n) := by
  constructor
  · intro l k hl
    rcases kind_addDirectory_cases d n l with he | ⟨-, hnone, -⟩
    · exact he.trans hl
    · simp [hnone] at hl
  · intro l hl hl'
    rcases kind_addDirectory_cases d n l with he | ⟨-, -, hdir⟩
    · exact absurd (he.trans hl) hl'
    · exact hdir

theorem erase_le (l : Loc) : fs.erase l ≤ fs := by
  by_cases h : l ≠ [] ∧ fs.children l = []
  · intro k q hk
    rw [kind_erase h.1 h.2] at hk
    split_ifs at hk
    exact hk
  · rw [erase, dif_neg h]

/-! ## A chain of new directories -/

/-- New empty directories with the names `ns`, each in the one before, the first in `d`. -/
def addDirectories (fs : FileSystem) : Loc → List Name → FileSystem
  | _, [] => fs
  | d, n :: ns => (fs.addDirectory d n).addDirectories (d ++ [n]) ns

theorem grown_addDirectories (d : Loc) (ns : List Name) : fs.Grown (fs.addDirectories d ns) := by
  induction ns generalizing fs d with
  | nil => exact refl fs
  | cons n ns ih => exact IsTrans.trans _ _ _ (grown_addDirectory d n) (ih _)

/-- A new node lies at a prefix of the names. -/
theorem exists_of_kind_addDirectories {d l : Loc} {ns : List Name} (hl : fs.kind l = none)
    (hl' : (fs.addDirectories d ns).kind l ≠ none) : ∃ r, r ≠ [] ∧ r <+: ns ∧ l = d ++ r := by
  induction ns generalizing fs d with
  | nil => exact absurd hl hl'
  | cons n ns ih =>
    rcases kind_addDirectory_cases d n l with he | ⟨rfl, -, -⟩
    · obtain ⟨r, -, hp, rfl⟩ := ih (he.trans hl) hl'
      exact ⟨n :: r, by simp, by simpa using hp, by simp⟩
    · exact ⟨[n], by simp, by simp, rfl⟩

/-- **Every prefix of the names leads to a directory**, when nothing was there. -/
theorem kind_addDirectories {d : Loc} {ns r : List Name} (hd : fs.kind d = some .directory)
    (hfree : ∀ n ∈ ns.head?, fs.kind (d ++ [n]) = none) (hns : ∀ n ∈ ns, IsName n)
    (hp : r <+: ns) : (fs.addDirectories d ns).kind (d ++ r) = some .directory := by
  induction ns generalizing fs d r with
  | nil =>
    obtain rfl := List.prefix_nil.mp hp
    simpa [addDirectories] using hd
  | cons n ns ih =>
    obtain ⟨hn, htail⟩ := List.forall_mem_cons.mp hns
    have hfree' : fs.kind (d ++ [n]) = none := hfree n (by simp)
    have hkind := kind_addDirectory hd hfree' hn
    cases r with
    | nil =>
      have hle : fs ≤ fs.addDirectories d (n :: ns) := (grown_addDirectories d (n :: ns)).le
      rw [List.append_nil]
      exact hle d _ hd
    | cons m r =>
      obtain ⟨rfl, hr⟩ := List.cons_prefix_cons.mp hp
      rw [List.append_cons]
      refine ih (by simp [hkind]) ?_ htail hr
      -- what lies in the new directory is not there yet
      intro k _
      rw [hkind, if_neg (by simp)]
      by_contra hne
      simp [kind_parent hne] at hfree'

/-- The last of the new directories is empty. -/
theorem children_addDirectories {d : Loc} {ns : List Name} (h : fs.kind (d ++ ns) = none) :
    (fs.addDirectories d ns).children (d ++ ns) = [] := by
  apply List.eq_nil_iff_forall_not_mem.mpr
  intro n hn
  have hnone : fs.kind (d ++ ns ++ [n]) = none := by
    by_contra hne
    simp [kind_parent hne] at h
  obtain ⟨r, -, hp, hr⟩ := exists_of_kind_addDirectories hnone (mem_children.mp hn)
  -- no prefix of the names is longer than they are
  have hlen := hp.length_le
  have := congrArg List.length hr
  simp only [List.length_append, List.length_singleton] at this
  omega

end FileSystem

end Posix
