import RcppUtils.Path.Recompose
import RcppUtils.Path.RemoveExtension
import RcppUtils.Text.Delimiter

/-!
# Paths as strings

The components that a path stores are redundant but for one bit: whether the root is among them. A
spelling is the string of a path with this bit, and each operation on paths is an operation on
spellings, which works on the characters alone. Two programs that hold equal paths go on with equal
paths, as long as they take no parent and no last component of the root.

## Main definitions

* `Spelling`, `Path.spelling`: a string with the bit, and that of a path
* `Spelling.append`, `Spelling.parentPath`, ...: the operations on characters
* `Spelling.exec`: the machine that holds spellings

## Main results

* `parentPath_spelling`, `append_spelling`, ...: the operations agree
* `run_spelling`: a program with paths is the program with their spellings
* `run_of_equal`: equal paths stay equal
-/

namespace RcppUtils

namespace Path

open Delimiter

/-- The string of a path, and whether its root is missing among the components. -/
@[ext] structure Spelling where
  text : StdString
  rootless : Bool
  deriving DecidableEq

namespace Spelling

instance : Inhabited Spelling := ⟨⟨[], false⟩⟩

/-- The root without a component. -/
def bareRoot : Spelling := ⟨['/'], true⟩

def ofString (s : StdString) : Spelling := ⟨stdReplace s '\\' '/', false⟩

def isAbsolute (v : Spelling) : Bool := v.text.head? = some '/'

/-- The strings are joined by one separator, also where the first one is empty. -/
def append (v w : Spelling) : Spelling :=
  if w.isAbsolute then w else ⟨withSeparator .posix v.text ++ w.text, v.text = [] || v.rootless⟩

/-- The parent of an absolute path has lost the root, unless it is made of one component. -/
def losesRoot (v : Spelling) : Bool :=
  if v.rootless then before '/' (chop '/' v.text) ≠ [] else v.text ≠ ['/']

/-- What stands before the last component, with single separators only, and behind a root if there
was one. -/
def parentPath (v : Spelling) : Option Spelling :=
  if v = bareRoot then none
  else if v.text = [] then some default
  else if v.isAbsolute then
    some ⟨squeeze '/' ('/' :: before '/' (chop '/' v.text)), v.losesRoot⟩
  else if '/' ∈ chop '/' v.text then some ⟨squeeze '/' (before '/' (chop '/' v.text)), false⟩
  else some ⟨['.'], false⟩

/-- The last component. -/
def filename (v : Spelling) : Option Spelling :=
  if v = bareRoot then none else some ⟨after '/' (chop '/' v.text), false⟩

/-- What stands behind the last dot, but for a final one, and the dot. -/
def extension (v : Spelling) : Option Spelling :=
  if v.text = [] then none
  else some ⟨if '.' ∈ chop '.' v.text then '.' :: after '.' (chop '.' v.text) else [], false⟩

/-- What stands before the last dot. -/
def stem (v : Spelling) : Spelling := if '.' ∈ v.text then ⟨before '.' v.text, false⟩ else v

def removeExtension (v : Spelling) (nTimes : ℤ) : Spelling := stem^[nTimes.toNat] v

/-- The variables of a program with spellings. -/
abbrev Store := ℕ → Spelling

/-- The spelling that an operation computes, when it is defined. -/
def value (σ : Store) : Op → Option Spelling
  | .default _ => some Inhabited.default
  | .construct _ s => some (ofString s)
  | .assign _ y => some (σ y)
  | .divide _ y z => some ((σ y).append (σ z))
  | .append x y =>
    if x = y ∧ (σ y).isAbsolute = false then none else some ((σ x).append (σ y))
  | .parentPath _ y => (σ y).parentPath
  | .filename _ y => (σ y).filename
  | .extension _ y => (σ y).extension
  | .removeExtension _ y nTimes => some ((σ y).removeExtension nTimes)

/-- The effect of an operation on the variables. -/
def exec (op : Op) (σ : Store) : Option Store := (value σ op).map (Function.update σ op.target)

end Spelling

/-- The spelling of a path. -/
def spelling (p : Path) : Spelling := ⟨p.path, p.pathAsVector ≠ tokens '/' p.path⟩

variable {p q : Path}

@[simp] theorem spelling_text (p : Path) : p.spelling.text = p.path := rfl

theorem Coherent.spelling_eq (hp : p.Coherent) : p.spelling = ⟨p.path, false⟩ := by
  simp [spelling, hp.pathAsVector_eq]

theorem Rootless.spelling_eq (hp : p.Rootless) : p.spelling = ⟨p.path, true⟩ := by
  have hne : p.pathAsVector ≠ tokens '/' p.path := fun h => hp.not_coherent ⟨hp.backslash_notMem, h⟩
  simp [spelling, hne]

theorem spelling_default : (default : Path).spelling = default := coherent_default.spelling_eq

theorem spelling_ofString (s : StdString) : (ofString .posix s).spelling = .ofString s := by
  rw [(coherent_ofString s).spelling_eq, ofString_path]
  rfl

theorem isAbsolute_spelling (p : Path) : p.spelling.isAbsolute = p.isAbsolute .posix := by
  rw [Bool.eq_iff_iff, isAbsolute_iff]
  simp [spelling, Spelling.isAbsolute]

theorem backslash_notMem (hp : p.Coherent ∨ p.Rootless) : '\\' ∉ p.path :=
  hp.elim (·.backslash_notMem) (·.backslash_notMem)

/-! ## Joining -/

theorem append_spelling (hp : p.Coherent ∨ p.Rootless) (hq : q.Coherent ∨ q.Rootless) :
    (p.append .posix q).spelling = p.spelling.append q.spelling := by
  by_cases habs : q.isAbsolute .posix = true
  · rw [append_of_isAbsolute habs, Spelling.append, isAbsolute_spelling, if_pos habs]
  -- a relative operand is coherent
  have hrel : q.isAbsolute .posix = false := by simpa using habs
  have hq : q.Coherent := hq.resolve_right fun h => habs h.isAbsolute
  rw [Spelling.append, isAbsolute_spelling, if_neg habs]
  rcases hp with hp | hp
  · by_cases hnil : p.path = []
    · rw [(hp.rootless_append hq hnil hrel).spelling_eq, hp.spelling_eq, hq.spelling_eq,
        append_of_not_isAbsolute hrel]
      simp [hnil]
    · rw [(hp.append hq (.inl hnil)).spelling_eq, hp.spelling_eq, hq.spelling_eq,
        append_of_not_isAbsolute hrel]
      simp [hnil]
  · rw [(hp.append hq hrel).spelling_eq, hp.spelling_eq, hq.spelling_eq,
      append_of_not_isAbsolute hrel]
    simp

/-! ## The parent and the last component -/

/-- The string without a final delimiter is that of its tokens. -/
theorem chop_eq_intercalate (d : Char) (s : StdString) :
    chop d s = [d].intercalate (tokens d s) := by
  have h := intercalate_tokens d s
  by_cases hlast : s.getLast? = some d
  · rw [if_pos hlast] at h
    conv_lhs => rw [← h, chop_concat]
  · rw [if_neg hlast, List.append_nil] at h
    rw [chop_of_getLast?_ne hlast, h]

/-- Without components, a path is the bare root. -/
theorem spelling_eq_bareRoot_iff (hp : p.Coherent ∨ p.Rootless) (hne : p.path ≠ []) :
    p.spelling = Spelling.bareRoot ↔ p.pathAsVector = [] := by
  rcases hp with hp | hp
  · rw [hp.spelling_eq, hp.pathAsVector_eq_nil]
    exact iff_of_false (by simp [Spelling.bareRoot]) hne
  · have hiff : p.path = ['/'] ↔ p.pathAsVector = [] := by
      rw [← tokens_eq_singleton_nil, hp.tokens_eq]
      simp
    rw [hp.spelling_eq, ← hiff]
    simp [Spelling.bareRoot]

/-- **The loop of `parent_path` squeezes separators.** -/
theorem path_foldl_parentStep {cs : List StdString} {parent : Path} {u : StdString}
    (hcs : ∀ c ∈ cs, IsComponent c) (hu : u ≠ []) (h : parent.path = squeeze '/' u) :
    (cs.foldl (parentStep .posix p) parent).path = squeeze '/' (u ++ cs.flatMap ('/' :: ·)) := by
  induction cs generalizing parent u with
  | nil => simpa using h
  | cons c cs ih =>
    obtain ⟨hc, hcs⟩ := List.forall_mem_cons.mp hcs
    have hne : squeeze '/' u ≠ [] := by simpa using hu
    have hright : squeeze '/' (u ++ '/' :: c) = withSeparator .posix (squeeze '/' u) ++ c := by
      rw [← List.singleton_append, ← List.append_assoc, squeeze_append _ hc.slash_notMem,
        squeeze_concat, withSeparator_of_ne_nil hne, getLast?_squeeze]
      split_ifs <;> simp_all
    have hstep : (parentStep .posix p parent c).path = squeeze '/' (u ++ '/' :: c) := by
      rw [hright, parentStep_of_ne_nil (h ▸ hne), append_of_not_isAbsolute hc.isAbsolute,
        ofString_component hc.slash_notMem hc.backslash_notMem, h]
    rw [List.foldl_cons, ih hcs (by simp) hstep, List.flatMap_cons, List.append_assoc]

/-- The loop of `parent_path` on a relative path starts with the first component. -/
theorem path_foldl_of_relative (habs : p.isAbsolute .posix = false) {cs : List StdString}
    (hcs : ∀ c ∈ cs, IsComponent c) (hhead : cs.head? ≠ some []) (hne : cs ≠ []) :
    (cs.foldl (parentStep .posix p) default).path = squeeze '/' (['/'].intercalate cs) := by
  obtain ⟨c, cs, rfl⟩ := List.exists_cons_of_ne_nil hne
  obtain ⟨hc, hcs⟩ := List.forall_mem_cons.mp hcs
  have hc0 : c ≠ [] := by simpa using hhead
  have hfirst : (ofString .posix c).path = squeeze '/' c := by
    have h := squeeze_append [] hc.slash_notMem
    rw [ofString_component hc.slash_notMem hc.backslash_notMem]
    simpa using h.symm
  rw [List.foldl_cons, parentStep_default habs, path_foldl_parentStep hcs hc0 hfirst,
    intercalate_cons]

/-- On an absolute path it starts with the root. -/
theorem path_foldl_of_absolute (habs : p.isAbsolute .posix = true) {cs : List StdString}
    (hcs : ∀ c ∈ cs, IsComponent c) (hne : cs ≠ []) :
    (cs.foldl (parentStep .posix p) default).path =
      squeeze '/' ('/' :: ['/'].intercalate cs) := by
  obtain ⟨c, cs, rfl⟩ := List.exists_cons_of_ne_nil hne
  obtain ⟨hc, hcs⟩ := List.forall_mem_cons.mp hcs
  have hfirst : (parentStep .posix p default c).path = squeeze '/' ('/' :: c) := by
    have h := squeeze_append ['/'] hc.slash_notMem
    rw [parentStep_of_isAbsolute habs, append_of_not_isAbsolute hc.isAbsolute,
      ofString_component hc.slash_notMem hc.backslash_notMem]
    exact h.symm
  rw [List.foldl_cons, path_foldl_parentStep hcs (by simp) hfirst, intercalate_cons]
  rfl

section Components

variable {cs : List StdString} {c : StdString}

/-- What stands before the last component of an absolute path, behind a separator: the root of a
coherent path is squeezed with it. -/
theorem squeeze_cons_before (hp : p.Coherent ∨ p.Rootless) (hv : p.pathAsVector = cs ++ [c])
    (hc : '/' ∉ c) :
    squeeze '/' ('/' :: before '/' (chop '/' p.path)) =
      squeeze '/' ('/' :: ['/'].intercalate cs) := by
  rw [chop_eq_intercalate]
  rcases hp with hp | hp
  · rw [← hp.pathAsVector_eq, hv, before_intercalate_concat cs hc]
  · rw [hp.tokens_eq, hv, ← List.cons_append, before_intercalate_concat _ hc]
    cases cs with
    | nil => rfl
    | cons c' cs =>
      rw [List.intercalate_cons_cons]
      exact squeeze_cons_cons '/' _

/-- The loop of `parent_path` leaves the root out where it has a round. -/
theorem losesRoot_spelling (hp : p.Coherent ∨ p.Rootless) (habs : p.isAbsolute .posix = true)
    (hv : p.pathAsVector = cs ++ [c]) (hc : '/' ∉ c) :
    p.spelling.losesRoot = true ↔ cs ≠ [] := by
  rcases hp with hp | hp
  · obtain ⟨ds, hds⟩ := hp.exists_cons habs
    rw [hv] at hds
    have hroot : p.path = ['/'] ↔ cs = [] := by
      rw [← tokens_eq_singleton_nil, ← hp.pathAsVector_eq, hv]
      cases cs with
      | nil => simpa using (List.cons.inj hds).1
      | cons c' cs => simp
    simp [hp.spelling_eq, Spelling.losesRoot, hroot]
  · have hbefore : before '/' (chop '/' p.path) = ['/'].intercalate ([] :: cs) := by
      rw [chop_eq_intercalate, hp.tokens_eq, hv, ← List.cons_append, before_intercalate_concat _ hc]
    have hnil : ['/'].intercalate ([] :: cs) = [] ↔ cs = [] := by
      cases cs <;> simp [List.intercalate_cons_cons]
    simp [hp.spelling_eq, Spelling.losesRoot, hbefore, hnil]

theorem two_le_length_of_concat (hv : p.pathAsVector = cs ++ [c]) (hne : cs ≠ []) :
    2 ≤ p.pathAsVector.length := by
  have hpos := List.length_pos_iff.mpr hne
  rw [hv, List.length_append, List.length_singleton]
  omega

/-- The parent of an absolute path: the loop starts with the root, and leaves it out of the
components. -/
theorem parentPath_spelling_of_absolute (hp : p.Coherent ∨ p.Rootless) (hnil : p.path ≠ [])
    (habs : p.isAbsolute .posix = true) (hv : p.pathAsVector = cs ++ [c])
    (hcs : ∀ d ∈ cs, IsComponent d) (hc : '/' ∉ c) :
    (p.parentPath .posix).map spelling =
      some ⟨squeeze '/' ('/' :: before '/' (chop '/' p.path)), p.spelling.losesRoot⟩ := by
  rw [squeeze_cons_before hp hv hc]
  by_cases hone : cs = []
  · -- one component: the root is a new path, which is coherent
    have hlose : p.spelling.losesRoot = false := by
      simpa [hone] using (losesRoot_spelling hp habs hv hc).not
    rw [hone, List.nil_append] at hv
    rw [parentPath_of_singleton hnil hv, if_pos habs, hone, hlose, Option.map_some,
      spelling_ofString]
    rfl
  · have hlose : p.spelling.losesRoot = true := (losesRoot_spelling hp habs hv hc).mpr hone
    have htwo := two_le_length_of_concat hv hone
    obtain ⟨q, hq, hqroot, -⟩ := rootless_parentPath hp habs htwo
    have hpath := hq.symm.trans (parentPath_of_two_le hnil htwo)
    rw [hv, List.dropLast_concat] at hpath
    rw [hq, Option.map_some, hqroot.spelling_eq, Option.some_inj.mp hpath,
      path_foldl_of_absolute habs hcs hone, hlose]

/-- The parent of a relative path, which is `.` for a path of one component. -/
theorem parentPath_spelling_of_relative (hp : p.Coherent) (hnil : p.path ≠ [])
    (habs : p.isAbsolute .posix = false) (hv : p.pathAsVector = cs ++ [c])
    (hcs : ∀ d ∈ cs, IsComponent d) (hc : '/' ∉ c) :
    (p.parentPath .posix).map spelling =
      if '/' ∈ chop '/' p.path then some ⟨squeeze '/' (before '/' (chop '/' p.path)), false⟩
      else some ⟨['.'], false⟩ := by
  have hchop : chop '/' p.path = ['/'].intercalate (cs ++ [c]) := by
    rw [chop_eq_intercalate, ← hp.pathAsVector_eq, hv]
  rw [hchop, before_intercalate_concat _ hc]
  by_cases hone : cs = []
  · rw [if_neg ((mem_intercalate_concat _ hc).not.mpr (not_not.mpr hone))]
    rw [hone, List.nil_append] at hv
    rw [parentPath_of_singleton hnil hv, if_neg (by simp [habs]), Option.map_some,
      spelling_ofString]
    rfl
  · have htwo := two_le_length_of_concat hv hone
    have hhead : cs.head? ≠ some [] := by
      have h := hp.head?_ne habs
      rwa [hv, List.head?_append_of_ne_nil _ hone] at h
    obtain ⟨q, hq, hqco, -⟩ := hp.parentPath_of_relative habs htwo
    have hpath := hq.symm.trans (parentPath_of_two_le hnil htwo)
    rw [hv, List.dropLast_concat] at hpath
    rw [if_pos ((mem_intercalate_concat _ hc).mpr hone), hq, Option.map_some, hqco.spelling_eq,
      Option.some_inj.mp hpath, path_foldl_of_relative habs hcs hhead hone]

end Components

/-- **The parent**, on characters. -/
theorem parentPath_spelling (hp : p.Coherent ∨ p.Rootless) :
    (p.parentPath .posix).map spelling = p.spelling.parentPath := by
  by_cases hnil : p.path = []
  · have hroot : p.spelling ≠ Spelling.bareRoot := fun h => by
      simp [spelling, Spelling.bareRoot, hnil] at h
    rw [parentPath_of_nil hnil, Option.map_some, spelling_ofString, Spelling.parentPath,
      if_neg hroot, spelling_text, if_pos hnil]
    rfl
  by_cases hv : p.pathAsVector = []
  · rw [parentPath_eq_none hnil hv, Spelling.parentPath,
      if_pos ((spelling_eq_bareRoot_iff hp hnil).mpr hv)]
    rfl
  have hroot : p.spelling ≠ Spelling.bareRoot := fun h =>
    hv ((spelling_eq_bareRoot_iff hp hnil).mp h)
  obtain ⟨c, hc, hcs, -⟩ := exists_filename hp hv
  have hmem : ∀ d ∈ p.pathAsVector.dropLast, IsComponent d := fun d hd => by
    have h := (List.dropLast_sublist _).subset hd
    exact hp.elim (·.isComponent h) (·.isComponent h)
  rw [Spelling.parentPath, if_neg hroot, spelling_text, if_neg hnil, isAbsolute_spelling]
  cases habs : p.isAbsolute .posix with
  | true => exact parentPath_spelling_of_absolute hp hnil habs hcs hmem hc.slash_notMem
  | false =>
    -- a rootless path is absolute
    have hco : p.Coherent := hp.resolve_right fun h => by simp [h.isAbsolute] at habs
    exact parentPath_spelling_of_relative hco hnil habs hcs hmem hc.slash_notMem

/-- **The last component**, on characters. -/
theorem filename_spelling (hp : p.Coherent ∨ p.Rootless) :
    (p.filename .posix).map spelling = p.spelling.filename := by
  by_cases hnil : p.path = []
  · have hroot : p.spelling ≠ Spelling.bareRoot := fun h => by
      simp [spelling, Spelling.bareRoot, hnil] at h
    rw [filename, if_pos hnil, Option.map_some, spelling_default, Spelling.filename,
      if_neg hroot, spelling_text, hnil]
    rfl
  by_cases hv : p.pathAsVector = []
  · rw [filename, if_neg hnil, hv, Spelling.filename,
      if_pos ((spelling_eq_bareRoot_iff hp hnil).mpr hv)]
    rfl
  have hroot : p.spelling ≠ Spelling.bareRoot := fun h =>
    hv ((spelling_eq_bareRoot_iff hp hnil).mp h)
  obtain ⟨c, hc, hcs, hname⟩ := exists_filename hp hv
  have hafter : after '/' (chop '/' p.path) = c := by
    rw [chop_eq_intercalate]
    rcases hp with hp | hp
    · rw [← hp.pathAsVector_eq, hcs, after_intercalate_concat _ hc.slash_notMem]
    · rw [hp.tokens_eq, hcs, ← List.cons_append, after_intercalate_concat _ hc.slash_notMem]
  rw [hname, Option.map_some, spelling_ofString, Spelling.filename, if_neg hroot, spelling_text,
    hafter, Spelling.ofString, stdReplace_of_notMem hc.backslash_notMem]

/-! ## Extensions -/

/-- **The extension**, on characters. -/
theorem extension_spelling (hp : p.Coherent ∨ p.Rootless) :
    (p.extension .posix).map spelling = p.spelling.extension := by
  by_cases hnil : p.path = []
  · rw [extension_of_nil hnil, Spelling.extension, spelling_text, if_pos hnil]
    rfl
  rcases List.eq_nil_or_concat (tokens '.' p.path) with htok | ⟨ts, t, htok⟩
  · exact absurd (tokens_eq_nil.mp htok) hnil
  rw [List.concat_eq_append] at htok
  have ht : t ∈ tokens '.' p.path := by simp [htok]
  have hdot : '.' ∉ t := notMem_of_mem_tokens ht
  have hback : '\\' ∉ '.' :: t := by
    simpa using fun h => backslash_notMem hp (mem_of_mem_tokens ht h)
  rw [Spelling.extension, spelling_text, if_neg hnil, chop_eq_intercalate, htok,
    after_intercalate_concat _ hdot, extension, split_eq_tokens, htok]
  by_cases hone : ts = []
  · rw [if_neg ((mem_intercalate_concat _ hdot).not.mpr (not_not.mpr hone)), hone]
    exact congrArg some (spelling_ofString [])
  · have hlen : (ts ++ [t]).length ≠ 1 := by simpa using hone
    rw [if_pos ((mem_intercalate_concat _ hdot).mpr hone)]
    simp only [if_neg hlen, List.getLast?_concat, Option.map_some, spelling_ofString,
      Spelling.ofString, stdReplace_of_notMem hback]

/-- One round of `remove_extension`, and all rounds. -/
theorem removeExtensionLoop_spelling (hp : p.Coherent ∨ p.Rootless) (n : ℕ) :
    (removeExtensionLoop .posix n p).spelling = Spelling.stem^[n] p.spelling := by
  induction n generalizing p with
  | zero => rfl
  | succ n ih =>
    rw [Function.iterate_succ_apply, Spelling.stem, spelling_text]
    by_cases hdot : '.' ∈ p.path
    · obtain ⟨u, v, he, hv⟩ := exists_eq_append_last hdot
      have hu : '\\' ∉ u := fun h => backslash_notMem hp (by simp [he, h])
      rw [removeExtensionLoop_of_dot he hv, ih (.inl (coherent_ofString u)), spelling_ofString,
        if_pos hdot, he, before_append_cons u hv, Spelling.ofString, stdReplace_of_notMem hu]
    · rw [removeExtensionLoop_of_notMem hdot, if_neg hdot, ← ih hp,
        removeExtensionLoop_of_notMem hdot]

/-! ## Programs -/

section Programs

variable {σ τ : Store}

/-- The variables of a program hold paths that are coherent or rootless. -/
def Store.Sound (σ : Store) : Prop := ∀ x, (σ x).Coherent ∨ (σ x).Rootless

/-- The spellings of the variables. -/
def Store.spelling (σ : Store) : Spelling.Store := fun x => (σ x).spelling

theorem Store.sound_default : Store.Sound fun _ => default := fun _ => .inl coherent_default

theorem Store.sound_exec {op : Op} {σ σ' : Store} (hσ : σ.Sound) (h : exec op σ = some σ') :
    σ'.Sound := by
  obtain ⟨p, hp, hiff⟩ := exec_forall_iff (P := fun q => q.Coherent ∨ q.Rootless) hσ h
  exact hiff.mpr (Op.coherent_or_rootless_value hσ hp)

/-- **What an operation computes**, on characters. -/
theorem value_spelling (hσ : σ.Sound) (op : Op) :
    (op.value σ).map Path.spelling = Spelling.value σ.spelling op := by
  cases op with
  | default x => exact congrArg some spelling_default
  | construct x s => exact congrArg some (spelling_ofString s)
  | assign x y => rfl
  | divide x y z => exact congrArg some (append_spelling (hσ y) (hσ z))
  | append x y =>
    rw [Op.value, Spelling.value, Store.spelling, isAbsolute_spelling]
    split_ifs
    · rfl
    · exact congrArg some (append_spelling (hσ x) (hσ y))
  | parentPath x y => exact parentPath_spelling (hσ y)
  | filename x y => exact filename_spelling (hσ y)
  | extension x y => exact extension_spelling (hσ y)
  | removeExtension x y n => exact congrArg some (removeExtensionLoop_spelling (hσ y) n.toNat)

theorem exec_spelling (op : Op) (hσ : σ.Sound) :
    (exec op σ).map Store.spelling = Spelling.exec op σ.spelling := by
  rw [exec, Spelling.exec, ← value_spelling hσ, Option.map_map, Option.map_map]
  congr 1
  funext p
  exact Function.comp_update Path.spelling σ op.target p

/-- **A program with paths is the program with their spellings**: it gets stuck where that one does,
and otherwise ends with the paths that have these spellings. -/
theorem run_spelling (ops : List Op) :
    (Machine.run exec ops fun _ => default).map Store.spelling =
      Machine.run Spelling.exec ops fun _ => default :=
  Machine.run_map Store.spelling (fun _ _ _ hσ h => Store.sound_exec hσ h)
    (fun op _ hσ => exec_spelling op hσ) ops Store.sound_default

/-! ## Equal paths -/

/-- The operation takes no parent and no last component of the string of the root. -/
def AwayFromRoot (text : ℕ → StdString) : Op → Prop
  | .parentPath _ y | .filename _ y => text y ≠ ['/']
  | _ => True

/-- The variables of two programs are equal. -/
structure EqualStores (σ τ : Store) : Prop where
  left : σ.Sound
  right : τ.Sound
  path_eq : ∀ x, (σ x).path = (τ x).path

namespace Spelling

variable {v w v' w' : Spelling}

theorem bareRoot_of_parentPath (h : v.parentPath = none) : v = bareRoot := by
  by_contra hne
  rw [parentPath, if_neg hne] at h
  split_ifs at h

/-- The string of a parent is that of the string. -/
theorem parentPath_text (h : v.text = w.text) (hv : v.parentPath = some v')
    (hw : w.parentPath = some w') : v'.text = w'.text := by
  have habs : v.isAbsolute = w.isAbsolute := by rw [isAbsolute, isAbsolute, h]
  unfold parentPath at hv hw
  rw [h, habs] at hv
  split_ifs at hv hw <;> simp_all [← Option.some_inj.mp hv, ← Option.some_inj.mp hw]

theorem filename_text (h : v.text = w.text) (hv : v.filename = some v')
    (hw : w.filename = some w') : v'.text = w'.text := by
  unfold filename at hv hw
  rw [h] at hv
  split_ifs at hv hw
  simp_all

theorem append_text (h : v.text = w.text) (h' : v'.text = w'.text) :
    (v.append v').text = (w.append w').text := by
  have habs : v'.isAbsolute = w'.isAbsolute := by rw [isAbsolute, isAbsolute, h']
  rw [append, append, habs]
  split_ifs
  · exact h'
  · rw [h, h']

theorem iterate_stem_text (h : v.text = w.text) (n : ℕ) :
    (stem^[n] v).text = (stem^[n] w).text := by
  induction n generalizing v w with
  | zero => exact h
  | succ n ih =>
    apply ih
    rw [stem, stem, h]
    split_ifs
    · rfl
    · exact h

/-- What an operation computes from equal strings has equal strings. -/
theorem value_text {σ τ : Store} (h : ∀ x, (σ x).text = (τ x).text) {op : Op}
    (hv : value σ op = some v) (hw : value τ op = some w) : v.text = w.text := by
  cases op with
  | default x => rw [← Option.some_inj.mp hv, ← Option.some_inj.mp hw]
  | construct x s => rw [← Option.some_inj.mp hv, ← Option.some_inj.mp hw]
  | assign x y => rw [← Option.some_inj.mp hv, ← Option.some_inj.mp hw, h]
  | divide x y z =>
    rw [← Option.some_inj.mp hv, ← Option.some_inj.mp hw, append_text (h y) (h z)]
  | append x y =>
    simp only [value] at hv hw
    split_ifs at hv hw
    rw [← Option.some_inj.mp hv, ← Option.some_inj.mp hw, append_text (h x) (h y)]
  | parentPath x y => exact parentPath_text (h y) hv hw
  | filename x y => exact filename_text (h y) hv hw
  | extension x y =>
    have he : (σ y).extension = (τ y).extension := by rw [extension, extension, h]
    rw [Option.some_inj.mp (hv.symm.trans (he.trans hw))]
  | removeExtension x y n =>
    rw [← Option.some_inj.mp hv, ← Option.some_inj.mp hw]
    exact iterate_stem_text (h y) n.toNat

/-- Where an operation is defined, it is defined on equal strings, away from the root. -/
theorem exists_value {σ τ : Store} (h : ∀ x, (σ x).text = (τ x).text) {op : Op}
    (hop : AwayFromRoot (fun x => (σ x).text) op) (hv : value σ op = some v) :
    ∃ w, value τ op = some w := by
  have hroot : ∀ y, (σ y).text ≠ ['/'] → τ y ≠ bareRoot := by
    intro y hy he
    exact hy ((h y).trans (congrArg text he))
  cases op with
  | append x y =>
    have habs : (σ y).isAbsolute = (τ y).isAbsolute := by rw [isAbsolute, isAbsolute, h]
    simp only [value, habs] at hv ⊢
    split_ifs at hv ⊢ with hself
    exact ⟨_, rfl⟩
  | parentPath x y =>
    refine Option.ne_none_iff_exists'.mp fun hnone => ?_
    exact hroot y hop (bareRoot_of_parentPath hnone)
  | filename x y => exact ⟨_, if_neg (hroot y hop)⟩
  | extension x y =>
    have he : (σ y).extension = (τ y).extension := by rw [extension, extension, h]
    exact ⟨v, he.symm.trans hv⟩
  | _ => exact ⟨_, rfl⟩

end Spelling

theorem EqualStores.step {op : Op} {σ' τ' : Store} (h : EqualStores σ τ)
    (hσ : exec op σ = some σ') (hτ : exec op τ = some τ') : EqualStores σ' τ' := by
  refine ⟨Store.sound_exec h.left hσ, Store.sound_exec h.right hτ, ?_⟩
  obtain ⟨p, hp, rfl⟩ := Option.map_eq_some_iff.mp hσ
  obtain ⟨q, hq, rfl⟩ := Option.map_eq_some_iff.mp hτ
  have hv := value_spelling h.left op
  have hw := value_spelling h.right op
  rw [hp, Option.map_some] at hv
  rw [hq, Option.map_some] at hw
  intro x
  by_cases hx : x = op.target
  · subst hx
    simpa using Spelling.value_text h.path_eq hv.symm hw.symm
  · simpa [Function.update_of_ne hx] using h.path_eq x

theorem EqualStores.exists_step {op : Op} {σ' : Store} (h : EqualStores σ τ)
    (hop : AwayFromRoot (fun x => (σ x).path) op) (hσ : exec op σ = some σ') :
    ∃ τ', exec op τ = some τ' := by
  obtain ⟨p, hp, rfl⟩ := Option.map_eq_some_iff.mp hσ
  have hv := value_spelling h.left op
  rw [hp, Option.map_some] at hv
  have htext : ∀ x, (σ.spelling x).text = (τ.spelling x).text := h.path_eq
  obtain ⟨w, hw⟩ := Spelling.exists_value htext hop hv.symm
  rw [← value_spelling h.right] at hw
  obtain ⟨q, hq, -⟩ := Option.map_eq_some_iff.mp hw
  exact ⟨_, Option.map_eq_some_iff.mpr ⟨q, hq, rfl⟩⟩

/-- **Equal paths stay equal**: of two programs that hold equal paths and go on with the same
operations, the second one has equal paths in the end; and it comes to the end if the first one
does and takes no parent and no last component of the root. -/
theorem run_of_equal {as bs ops : List Op} {σ' : Store}
    (hσ : Machine.run exec as (fun _ => default) = some σ)
    (hτ : Machine.run exec bs (fun _ => default) = some τ)
    (h : ∀ x, equal (σ x) (τ x) = true) (hrun : Machine.run exec ops σ = some σ') :
    (∀ τ', Machine.run exec ops τ = some τ' → ∀ x, equal (σ' x) (τ' x) = true) ∧
      (Machine.EveryStep exec (fun op σ => AwayFromRoot (fun x => (σ x).path) op) ops σ →
        ∃ τ', Machine.run exec ops τ = some τ') := by
  have sound : ∀ {as : List Op} {σ : Store}, Machine.run exec as (fun _ => default) = some σ →
      σ.Sound := fun hrun =>
    Machine.run_invariant (I := Store.Sound) (fun _ _ _ hσ h => Store.sound_exec hσ h)
      Store.sound_default hrun
  have hequal : EqualStores σ τ := ⟨sound hσ, sound hτ, fun x => by simpa [equal] using h x⟩
  have hstep : ∀ op σ τ σ' τ', EqualStores σ τ → exec op σ = some σ' → exec op τ = some τ' →
      EqualStores σ' τ' := fun _ _ _ _ _ h hσ hτ => h.step hσ hτ
  constructor
  · intro τ' hτ' x
    simpa [equal] using (Machine.run_related hstep hequal hrun hτ').path_eq x
  · exact Machine.exists_run_of_related hstep (fun _ _ _ _ h hop hσ => h.exists_step hop hσ) hequal
      hrun

/-- The parent of `/f` and `/` are equal, and so are the paths that are made of them. -/
theorem run_of_equal_root :
    ∃ σ τ σ', Machine.run exec [.construct 0 "/f".toList, .parentPath 1 0] (fun _ => default) =
        some σ ∧
      Machine.run exec [.construct 0 "/f".toList, .construct 1 ['/']] (fun _ => default) =
        some τ ∧
      Machine.run exec [.append 1 0, .parentPath 2 0] σ = some σ' ∧
      ∀ τ', Machine.run exec [.append 1 0, .parentPath 2 0] τ = some τ' →
        ∀ x, equal (σ' x) (τ' x) = true := by
  obtain ⟨σ, τ, σ', hσ, hτ, h, hrun⟩ : ∃ σ τ σ',
      Machine.run exec [.construct 0 "/f".toList, .parentPath 1 0] (fun _ => default) = some σ ∧
      Machine.run exec [.construct 0 "/f".toList, .construct 1 ['/']] (fun _ => default) =
        some τ ∧
      (∀ x, equal (σ x) (τ x) = true) ∧
      Machine.run exec [.append 1 0, .parentPath 2 0] σ = some σ' := by
    refine ⟨_, _, _, rfl, rfl, ?_, rfl⟩
    intro x
    rcases x with _ | _ | x <;> rfl
  exact ⟨σ, τ, σ', hσ, hτ, hrun, (run_of_equal hσ hτ h hrun).1⟩

end Programs

end Path

end RcppUtils
