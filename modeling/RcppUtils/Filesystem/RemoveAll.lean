import RcppUtils.Filesystem.Queries
import RcppUtils.Path.Coherent
import RcppUtils.Posix.Frontier

/-!
# `remove_all`

The function lists a directory and removes its entries one by one, each by the path that
appending the name of the entry gives. For an entry that is a directory it calls itself, and
removes the entry once more when that returned true. A null directory stream makes the function
undefined; the recursion and the rounds of a loop are bounded by a fuel.

## Main definitions

* `Outcome`, `removeAll`: the function on the POSIX build
* `subPath p n`: the path of the entry `n` of `p`
* `Locates`: a path that leads to a directory

## Main results

* `run_removeEntry_of_directory`, `run_removeEntries_cons`, `run_removeAll_of_directory`: the
  result of each part of the function
* `shrinks_removeAll`: only removals change the file system
* `Locates.subPath`: where the path of an entry leads
-/

namespace RcppUtils

open Posix Program

/-- How a call of `remove_all` ends. -/
inductive Outcome
  | returns (b : Bool)
  | undefined
  | outOfFuel
  deriving DecidableEq

/-- `rcpputils::fs::path(p) / directory_entry->d_name`. -/
def subPath (p : Path) (dName : Name) : Path := p.append .posix (.ofString .posix dName)

/-- The function goes on with `next` after `returns true`, and ends as it is otherwise. -/
def Outcome.andThen (next : SysProgram Outcome) : Outcome → SysProgram Outcome
  | .returns true => next
  | outcome => return outcome

/-- The removal of one entry of a directory: `returns true` goes on with the loop. -/
def removeEntry (removeAll : Path → SysProgram Outcome) (sub : Path) : SysProgram Outcome := do
  if ← sub.isDirectory then
    (← removeAll sub).andThen do return .returns (← remove sub)
  else return .returns (← remove sub)

/-- What follows the loop of `remove_all(p)`. -/
def finishRemoveAll (p : Path) (dir : Dir) : SysProgram Outcome := do
  SysProgram.closedir dir
  let _ ← remove p
  return .returns !(← p.exists)

/-- At most the given number of rounds of the loop of `remove_all(p)`. -/
def removeEntries (removeAll : Path → SysProgram Outcome) (p : Path) :
    ℕ → Dir → SysProgram Outcome
  | 0, _ => return .outOfFuel
  | rounds + 1, dir => do
    match ← SysProgram.readdir dir with
    | none => finishRemoveAll p dir
    | some (dName, dir) =>
      if dName = dot ∨ dName = dotdot then removeEntries removeAll p rounds dir
      else
        (← removeEntry removeAll (subPath p dName)).andThen (removeEntries removeAll p rounds dir)

/-- `remove_all(p)`. -/
def removeAll : ℕ → Path → SysProgram Outcome
  | 0, _ => return .outOfFuel
  | fuel + 1, p => do
    if ← p.isDirectory then
      match ← SysProgram.opendir (cStr p.path) with
      -- `readdir` of a null pointer
      | none => return .undefined
      | some dir => removeEntries (removeAll fuel) p fuel dir
    else return .returns (← remove p)

/-! ## The parts of a run -/

section Parts

variable (env : Env) (w : World)

theorem run_andThen (next : SysProgram Outcome) (o : Outcome) :
    (o.andThen next).run (handler env) w =
      if o = .returns true then next.run (handler env) w else (o, w) := by
  rcases o with (_ | _) | _ | _ <;> simp [Outcome.andThen]

theorem run_removeEntry_of_not {ra : Path → SysProgram Outcome} {sub : Path}
    (h : namesDirectory env w.fs (cStr sub.path) = false) :
    (removeEntry ra sub).run (handler env) w =
      (.returns ((remove sub).run (handler env) w).1, ((remove sub).run (handler env) w).2) := by
  rw [removeEntry, run_bind, run_isDirectory, h]
  simp only [Bool.false_eq_true, if_false, run_bind, pure_eq_ret, run_ret]

theorem run_removeEntry_of_directory {ra : Path → SysProgram Outcome} {sub : Path}
    (h : namesDirectory env w.fs (cStr sub.path) = true) {o : Outcome} {w' : World}
    (hra : (ra sub).run (handler env) w = (o, w')) :
    (removeEntry ra sub).run (handler env) w =
      if o = .returns true then
        (.returns ((remove sub).run (handler env) w').1, ((remove sub).run (handler env) w').2)
      else (o, w') := by
  rw [removeEntry, run_bind, run_isDirectory, h]
  simp only [if_true, run_bind, hra, run_andThen, pure_eq_ret, run_ret]

theorem run_removeEntries_nil (ra : Path → SysProgram Outcome) (p : Path) (rounds : ℕ) (id : ℕ) :
    (removeEntries ra p (rounds + 1) ⟨id, []⟩).run (handler env) w =
      (finishRemoveAll p ⟨id, []⟩).run (handler env) w := by
  rw [removeEntries, run_bind]
  rfl

/-- A round that reads the name `n`. -/
theorem run_removeEntries_readdir (ra : Path → SysProgram Outcome) (p : Path) (rounds : ℕ)
    (id : ℕ) (n : Name) (rest : List Name) :
    (removeEntries ra p (rounds + 1) ⟨id, n :: rest⟩).run (handler env) w =
      (if n = dot ∨ n = dotdot then removeEntries ra p rounds ⟨id, rest⟩
        else removeEntry ra (subPath p n) >>= fun o =>
          o.andThen (removeEntries ra p rounds ⟨id, rest⟩)).run (handler env) w := by
  rw [removeEntries, run_bind]
  rfl

theorem run_removeEntries_dots (ra : Path → SysProgram Outcome) (p : Path) (rounds : ℕ) (id : ℕ)
    {n : Name} (hn : n = dot ∨ n = dotdot) (rest : List Name) :
    (removeEntries ra p (rounds + 1) ⟨id, n :: rest⟩).run (handler env) w =
      (removeEntries ra p rounds ⟨id, rest⟩).run (handler env) w := by
  rw [run_removeEntries_readdir, if_pos hn]

theorem run_removeEntries_cons (ra : Path → SysProgram Outcome) (p : Path) (rounds : ℕ) (id : ℕ)
    {n : Name} (hn : ¬ (n = dot ∨ n = dotdot)) (rest : List Name) {o : Outcome} {w' : World}
    (he : (removeEntry ra (subPath p n)).run (handler env) w = (o, w')) :
    (removeEntries ra p (rounds + 1) ⟨id, n :: rest⟩).run (handler env) w =
      if o = .returns true then (removeEntries ra p rounds ⟨id, rest⟩).run (handler env) w'
      else (o, w') := by
  rw [run_removeEntries_readdir, if_neg hn, run_bind, he, run_andThen]

theorem run_finishRemoveAll (p : Path) (dir : Dir) :
    (finishRemoveAll p dir).run (handler env) w =
      (.returns !(stat env ((remove p).run (handler env) w).2.fs (cStr p.path)).toBool,
        ((remove p).run (handler env) w).2) := by
  rw [finishRemoveAll, run_bind, run_bind, run_bind, run_exists]
  rfl

theorem run_opendir {u : List Char} {l : Loc} (h : stat env w.fs u = .ok (l, .directory)) :
    (SysProgram.opendir u).run (handler env) w =
      (some ⟨w.opened, env.order w.opened (dot :: dotdot :: w.fs.children l)⟩,
        { w with opened := w.opened + 1 }) := by
  show handler env (.opendir u) w = _
  simp only [handler, h]
  rfl

theorem run_removeAll_of_not (fuel : ℕ) {p : Path}
    (h : namesDirectory env w.fs (cStr p.path) = false) :
    (removeAll (fuel + 1) p).run (handler env) w =
      (.returns ((remove p).run (handler env) w).1, ((remove p).run (handler env) w).2) := by
  rw [removeAll, run_bind, run_isDirectory, h]
  simp only [Bool.false_eq_true, if_false, run_bind, pure_eq_ret, run_ret]

theorem run_removeAll_of_directory (fuel : ℕ) {p : Path} {l : Loc}
    (h : stat env w.fs (cStr p.path) = .ok (l, .directory)) :
    (removeAll (fuel + 1) p).run (handler env) w =
      (removeEntries (removeAll fuel) p fuel
        ⟨w.opened, env.order w.opened (dot :: dotdot :: w.fs.children l)⟩).run (handler env)
        { w with opened := w.opened + 1 } := by
  have hdir : namesDirectory env w.fs (cStr p.path) = true := namesDirectory_iff.mpr ⟨l, h⟩
  rw [removeAll, run_bind, run_isDirectory, hdir, if_pos rfl, run_bind, run_opendir env w h]

end Parts

/-! ## Only removals change the file system -/

/-- The program only takes entries away. -/
def Shrinks {α : Type} (m : SysProgram α) : Prop :=
  ∀ env w, (m.run (handler env) w).2.fs ≤ w.fs

theorem Shrinks.bind {α β : Type} {m : SysProgram α} {f : α → SysProgram β} (hm : Shrinks m)
    (hf : ∀ a, Shrinks (f a)) : Shrinks (m >>= f) := by
  intro env w
  rw [run_bind]
  exact (hf _ env _).trans (hm env w)

theorem shrinks_pure {α : Type} (a : α) : Shrinks (pure a : SysProgram α) := fun _ _ => le_rfl

theorem shrinks_remove (p : Path) : Shrinks (remove p) := by
  intro env w
  cases h : Posix.remove env w.fs (cStr p.path) with
  | error e =>
    rw [run_remove_of_error env w p h]
  | ok fs =>
    rw [run_remove_of_ok env w p h]
    obtain ⟨_, n, d, _, -, -, -, -, -, -, -, -, rfl⟩ := remove_eq_ok h
    exact FileSystem.erase_le _

theorem shrinks_removeEntry {ra : Path → SysProgram Outcome} (hra : ∀ p, Shrinks (ra p))
    (sub : Path) : Shrinks (removeEntry ra sub) := by
  intro env w
  cases h : namesDirectory env w.fs (cStr sub.path) with
  | false =>
    rw [run_removeEntry_of_not env w h]
    exact shrinks_remove sub env w
  | true =>
    have hle := hra sub env w
    rw [run_removeEntry_of_directory env w h rfl]
    split_ifs
    · exact (shrinks_remove sub env _).trans hle
    · exact hle

theorem shrinks_finishRemoveAll (p : Path) (dir : Dir) : Shrinks (finishRemoveAll p dir) := by
  intro env w
  rw [run_finishRemoveAll]
  exact shrinks_remove p env w

theorem shrinks_removeEntries {ra : Path → SysProgram Outcome} (hra : ∀ p, Shrinks (ra p))
    (p : Path) (rounds : ℕ) (dir : Dir) : Shrinks (removeEntries ra p rounds dir) := by
  induction rounds generalizing dir with
  | zero => exact shrinks_pure _
  | succ rounds ih =>
    intro env w
    obtain ⟨id, _ | ⟨n, rest⟩⟩ := dir
    · rw [run_removeEntries_nil]
      exact shrinks_finishRemoveAll p _ env w
    by_cases hn : n = dot ∨ n = dotdot
    · rw [run_removeEntries_dots env w ra p rounds id hn]
      exact ih _ env w
    · have hle := shrinks_removeEntry hra (subPath p n) env w
      rw [run_removeEntries_cons env w ra p rounds id hn rest rfl]
      split_ifs
      · exact (ih _ env _).trans hle
      · exact hle

/-- **Only removals change the file system.** -/
theorem shrinks_removeAll (fuel : ℕ) (p : Path) : Shrinks (removeAll fuel p) := by
  induction fuel generalizing p with
  | zero => exact shrinks_pure _
  | succ fuel ih =>
    intro env w
    cases h : namesDirectory env w.fs (cStr p.path) with
    | false =>
      rw [run_removeAll_of_not env w fuel h]
      exact shrinks_remove p env w
    | true =>
      obtain ⟨l, hl⟩ := namesDirectory_iff.mp h
      rw [run_removeAll_of_directory env w fuel hl]
      exact shrinks_removeEntries ih p fuel _ env _

/-! ## The path of an entry -/

section SubPath

variable {p : Path} {n : Name}

theorem subPath_path (hn : IsName n) (hb : '\\' ∉ n) :
    (subPath p n).path = Path.withSeparator .posix p.path ++ n := by
  have hc : Path.IsComponent n := ⟨hn.slash_notMem, hb⟩
  rw [subPath, Path.append_of_not_isAbsolute hc.isAbsolute,
    Path.ofString_component hc.slash_notMem hc.backslash_notMem]

theorem nul_notMem_subPath (hp : nul ∉ p.path) (hn : IsName n) (hb : '\\' ∉ n) :
    nul ∉ (subPath p n).path := by
  rw [subPath_path hn hb, List.mem_append, nul_mem_withSeparator]
  exact not_or.mpr ⟨hp, hn.nul_notMem⟩

theorem names_subPath (hp : p.path ≠ []) (hn : IsName n) (hb : '\\' ∉ n) :
    names (subPath p n).path = names p.path ++ [n] := by
  rw [subPath_path hn hb, names_withSeparator_append hp, names_of_slash_notMem hn.slash_notMem,
    if_neg hn.ne_nil]

theorem parse_subPath (hp : p.path ≠ []) (hn : IsName n) (hb : '\\' ∉ n) :
    (Pathname.parse (subPath p n).path).absolute = (Pathname.parse p.path).absolute ∧
      (Pathname.parse (subPath p n).path).slash = false := by
  rw [subPath_path hn hb]
  constructor
  · simp [Pathname.parse, Path.head?_withSeparator hp]
  · have hlast : n.getLast? ≠ some '/' := fun h => hn.slash_notMem (List.mem_of_getLast? h)
    simpa [Pathname.parse, List.getLast?_append_of_ne_nil _ hn.ne_nil] using hlast

theorem subPath_path_ne_nil (hn : IsName n) (hb : '\\' ∉ n) : (subPath p n).path ≠ [] := by
  rw [subPath_path hn hb]
  exact List.append_ne_nil_of_right_ne_nil _ hn.ne_nil

end SubPath

/-! ## The path of a directory -/

/-- The path `p` has no null and leads to the directory `d`. -/
structure Locates (env : Env) (fs : FileSystem) (p : Path) (d : Loc) (k : ℕ) : Prop where
  nul_notMem : nul ∉ p.path
  path_ne_nil : p.path ≠ []
  leads : Leads fs env.symloopMax (env.start p.path) (names p.path) d k

section Locates

variable {env : Env} {fs fs' : FileSystem} {p : Path} {d : Loc} {k : ℕ} {n : Name}

/-- A path that names a directory itself has no null: its names are names of entries. -/
theorem exists_locates (hp : lstat env fs p.path = .ok d) (hd : fs.kind d = some .directory) :
    ∃ k, Locates env fs p d k := by
  obtain ⟨hne, hcases⟩ := atLast_eq_ok hp
  have leads : ∃ k, Leads fs env.symloopMax (env.start p.path) (names p.path) d k := by
    rcases hcases with ⟨hn, hroot⟩ | ⟨ns, n, d', k, hn, hw, hdir, hf⟩
    · have hhead : p.path.head? = some '/' := by
        by_contra hhead
        exact names_ne_nil hne hhead hn
      have hstart : env.start p.path = d := by
        rw [← Except.ok.inj hroot]
        simp [Env.start, Pathname.parse, hhead]
      rw [hn, hstart]
      exact ⟨_, leads_nil hd⟩
    · have hlead : Leads fs env.symloopMax (env.start p.path) ns d' k := ⟨hw, hdir⟩
      refine ⟨k, ?_, hd⟩
      rw [hn, hlead.walk_concat]
      -- the last name is `.`, `..`, or that of the directory
      split_ifs at hf with hdot hddot hnone
      · rw [hdot, walk_of_hop (.dot hdir), ← Except.ok.inj hf]
        simp
      · rw [hddot, walk_of_hop (.dotdot hdir), ← Except.ok.inj hf]
        simp
      · have hlast := Except.ok.inj hf
        rw [walk_of_hop (.node hdir hdot hddot (hlast ▸ hd) (by simp)), ← hlast]
        simp
  obtain ⟨k, hlead⟩ := leads
  refine ⟨k, ?_, hne, hlead⟩
  intro hnul
  -- a null would be in a name, and the names are names of entries
  obtain ⟨n, hn, hmem⟩ := exists_mem_names hnul nul_ne_slash
  rcases isName_of_walk hlead.walk n hn with rfl | rfl | hname
  · exact nul_notMem_dot hmem
  · exact nul_notMem_dotdot hmem
  · exact hname.nul_notMem hmem

/-- The path of a directory that is its last entry names it in the directory above. -/
theorem exists_parent {root : Loc} (hroot : lstat env fs p.path = .ok root) {ns : List Name}
    (hn : names p.path = ns ++ [n]) (hd : n ≠ dot) (hdd : n ≠ dotdot) :
    ∃ d j, Leads fs env.symloopMax (env.start p.path) ns d j ∧ root = d ++ [n] := by
  obtain ⟨hne, ⟨hnil, -⟩ | ⟨ns', n', d, j, hn', hw, hdir, hf⟩⟩ := atLast_eq_ok hroot
  · simp [hn] at hnil
  · obtain ⟨rfl, rfl⟩ : ns' = ns ∧ n' = n := by
      simpa using List.append_inj' (hn'.symm.trans hn) rfl
    rw [if_neg hd, if_neg hdd] at hf
    split_ifs at hf
    exact ⟨d, j, ⟨hw, hdir⟩, (Except.ok.inj hf).symm⟩

theorem Locates.stat (h : Locates env fs p d k) :
    stat env fs (cStr p.path) = .ok (d, .directory) := by
  rw [cStr_of_nul_notMem h.nul_notMem]
  exact (stat_directory_iff_leads h.path_ne_nil).mpr ⟨k, h.leads⟩

/-- Removing a regular file keeps the paths of directories. -/
theorem Locates.erase (h : Locates env fs p d k) {l : Loc} (hl : fs.kind l = some .regular) :
    Locates env (fs.erase l) p d k := by
  have hne : d ≠ l := fun e => by simp [e ▸ h.leads.kind] at hl
  have hl0 : l ≠ [] := fun e => by simp [e] at hl
  have hc : fs.children l = [] := FileSystem.children_eq_nil (by simp [hl])
  refine ⟨h.nul_notMem, h.path_ne_nil, walk_erase hl h.leads.walk hne, ?_⟩
  rw [FileSystem.kind_erase hl0 hc, if_neg hne, h.leads.kind]

/-- The path of an entry leads through the directory to the entry. -/
theorem Locates.subPath (h : Locates env fs p d k) (hn : IsName n) (hb : '\\' ∉ n) :
    cStr (subPath p n).path = (RcppUtils.subPath p n).path ∧
      names (RcppUtils.subPath p n).path = names p.path ++ [n] ∧
      Leads fs env.symloopMax (env.start (RcppUtils.subPath p n).path) (names p.path) d k := by
  refine ⟨cStr_of_nul_notMem (nul_notMem_subPath h.nul_notMem hn hb),
    names_subPath h.path_ne_nil hn hb, ?_⟩
  rw [start_eq_of_absolute_eq (parse_subPath h.path_ne_nil hn hb).1]
  exact h.leads

/-- Removing a regular file leaves the other entries of its directory. -/
theorem kind_erase_sibling (hreg : fs.kind (d ++ [n]) = some .regular) {m : Name} (hne : m ≠ n) :
    (fs.erase (d ++ [n])).kind (d ++ [m]) = fs.kind (d ++ [m]) := by
  rw [FileSystem.kind_erase (by simp) (FileSystem.children_eq_nil (by simp [hreg])),
    if_neg (by simpa using hne)]

section Regular

variable (h : Locates env fs p d k) (hb : '\\' ∉ n) (hreg : fs.kind (d ++ [n]) = some .regular)

include h hb hreg

/-- The path of a regular file names no directory. -/
theorem Locates.namesDirectory_subPath :
    namesDirectory env fs (cStr (RcppUtils.subPath p n).path) = false := by
  have hkind : fs.kind (d ++ [n]) ≠ none := by simp [hreg]
  have hn : IsName n := FileSystem.isName_of_kind_concat hkind
  obtain ⟨hc, hnames, hlead⟩ := h.subPath hn hb
  rw [Bool.eq_false_iff, ne_eq, namesDirectory_iff, hc]
  rintro ⟨l, hl⟩
  obtain ⟨j, hwalk, hdir⟩ := (stat_directory_iff_leads (subPath_path_ne_nil hn hb)).mp hl
  rw [hnames, hlead.walk_concat,
    walk_of_hop (.node h.leads.kind hn.ne_dot hn.ne_dotdot hreg (by simp)), List.append_nil,
    walk_nil] at hwalk
  obtain ⟨rfl, -⟩ := Prod.mk.inj (Except.ok.inj hwalk)
  simp [hreg] at hdir

/-- A regular file is removed by its path. -/
theorem Locates.remove_subPath :
    Posix.remove env fs (cStr (RcppUtils.subPath p n).path) = .ok (fs.erase (d ++ [n])) := by
  have hkind : fs.kind (d ++ [n]) ≠ none := by simp [hreg]
  have hn : IsName n := FileSystem.isName_of_kind_concat hkind
  obtain ⟨hc, hnames, hlead⟩ := h.subPath hn hb
  have hslash := (parse_subPath (n := n) h.path_ne_nil hn hb).2
  rw [hc, Posix.remove, atLast_of_walk (subPath_path_ne_nil hn hb) hnames hlead.walk hlead.kind,
    if_neg hn.ne_dot, if_neg hn.ne_dotdot, hreg]
  simp [hslash]

end Regular

end Locates

/-! ## What is listed -/

section Listing

variable {env : Env} {fs : FileSystem} {d : Loc} {k : ℕ} {n : Name}

theorem isName_of_mem_children (hn : n ∈ fs.children d) : IsName n :=
  FileSystem.isName_of_kind_concat (FileSystem.mem_children.mp hn)

/-- The listing of a directory has `.`, `..` and every entry. -/
theorem mem_listing :
    n ∈ env.order k (dot :: dotdot :: fs.children d) ↔
      n = dot ∨ n = dotdot ∨ n ∈ fs.children d := by
  rw [(env.order_perm _ _).mem_iff, List.mem_cons, List.mem_cons]

theorem mem_children_of_mem_listing (hn : n ∈ env.order k (dot :: dotdot :: fs.children d))
    (hd : n ≠ dot) (hdd : n ≠ dotdot) : n ∈ fs.children d :=
  ((mem_listing.mp hn).resolve_left hd).resolve_left hdd

variable (env fs d k)

theorem length_listing :
    (env.order k (dot :: dotdot :: fs.children d)).length = (fs.children d).length + 2 := by
  rw [(env.order_perm _ _).length_eq, List.length_cons, List.length_cons]

/-- Each of them is listed once. -/
theorem nodup_listing : (env.order k (dot :: dotdot :: fs.children d)).Nodup := by
  have hdot : dot ∉ fs.children d := fun hn => (isName_of_mem_children hn).ne_dot rfl
  have hdotdot : dotdot ∉ fs.children d := fun hn => (isName_of_mem_children hn).ne_dotdot rfl
  rw [(env.order_perm _ _).nodup_iff]
  simp [hdot, hdotdot, dotdot_ne_dot.symm, FileSystem.nodup_children]

end Listing

/-- The directory `/t` with the regular file `f`. -/
def flatTree : FileSystem where
  nodes := ((AList.singleton [] .directory).insert [['t']] .directory).insert [['t'], ['f']]
    .regular
  root := by decide
  parent := by decide
  isName := by decide

end RcppUtils
