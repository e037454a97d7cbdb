import RcppUtils.Filesystem.RemoveAll

/-!
# `remove_all` on a tree

After the recursive call for a subdirectory has returned true, the loop removes the entry once
more, which fails: the subdirectory is gone. So the function returns true only on a directory
without subdirectories.

## Main definitions

* `RemovesTree`: the function returns true and removes exactly the tree at a location

## Main results

* `removeEntries_ne_true`: a subdirectory among the entries makes the function fail
* `exists_run_of_regular`: what the loop does on regular files
* `removesTree_of_flat`: a directory of regular files is removed
* `removesTree_iff`: when the function removes a tree
-/

namespace RcppUtils

open Posix Program

/-- `remove_all(p)` ends, returns true, and leaves no entry at or below `root` and every other
entry as it is. -/
def RemovesTree (env : Env) (w : World) (p : Path) (root : Loc) : Prop :=
  ∃ N, ∀ fuel ≥ N,
    ((removeAll fuel p).run (handler env) w).1 = .returns true ∧
    ∀ l, ((removeAll fuel p).run (handler env) w).2.fs.kind l =
      if root <+: l then none else w.fs.kind l

/-- The path `p` names the directory `root`, and the tree below it has no symbolic links and no
backslashes in its names. -/
structure IsPlainTree (env : Env) (fs : FileSystem) (p : Path) (root : Loc) : Prop where
  lstat : Posix.lstat env fs p.path = .ok root
  directory : fs.kind root = some .directory
  not_symlink : ∀ l target, root <+: l → fs.kind l ≠ some (.symlink target)
  backslash_notMem : ∀ l n, root <+: l → n ∈ fs.children l → '\\' ∉ n

section Tree

variable {env : Env} {w : World} {fs : FileSystem} {p : Path} {root : Loc} {k : ℕ} {n : Name}

/-! ## A subdirectory -/

/-- The loop returns true only when the directory is gone. -/
theorem stat_of_removeEntries_true {ra : Path → SysProgram Outcome} {rounds : ℕ} {dir : Dir}
    {w' : World}
    (h : (removeEntries ra p rounds dir).run (handler env) w = (.returns true, w')) :
    ∃ e, stat env w'.fs (cStr p.path) = .error e := by
  induction rounds generalizing dir w with
  | zero => cases (Prod.mk.inj h).1
  | succ rounds ih =>
    obtain ⟨id, _ | ⟨n, rest⟩⟩ := dir
    · rw [run_removeEntries_nil, run_finishRemoveAll] at h
      obtain ⟨htrue, rfl⟩ := Prod.mk.inj h
      cases hs : stat env ((remove p).run (handler env) w).2.fs (cStr p.path) with
      | error e => exact ⟨e, rfl⟩
      | ok r => simp [hs, Except.toBool] at htrue
    by_cases hn : n = dot ∨ n = dotdot
    · rw [run_removeEntries_dots env w ra p rounds id hn] at h
      exact ih h
    · rw [run_removeEntries_cons env w ra p rounds id hn rest rfl] at h
      split_ifs at h with htrue
      · exact ih h
      · exact absurd (Prod.mk.inj h).1 htrue

theorem stat_of_removeAll_true {fuel : ℕ} {l : Loc} {w' : World}
    (hs : stat env w.fs (cStr p.path) = .ok (l, .directory))
    (h : (removeAll fuel p).run (handler env) w = (.returns true, w')) :
    ∃ e, stat env w'.fs (cStr p.path) = .error e := by
  cases fuel with
  | zero => cases (Prod.mk.inj h).1
  | succ fuel =>
    rw [run_removeAll_of_directory env w fuel hs] at h
    exact stat_of_removeEntries_true h

/-- Where a subdirectory can be removed, it can be found. -/
theorem stat_subPath_of_remove (h : Locates env fs p root k) (hn : IsName n) (hb : '\\' ∉ n)
    (hdir : fs.kind (root ++ [n]) = some .directory) (hle : w.fs ≤ fs) {fs' : FileSystem}
    (hr : Posix.remove env w.fs (cStr (subPath p n).path) = .ok fs') :
    ∃ l, stat env w.fs (cStr (subPath p n).path) = .ok (l, .directory) := by
  obtain ⟨hc, hnames, hlead⟩ := h.subPath hn hb
  rw [hc] at hr ⊢
  obtain ⟨ns, m, d, b, hne, hns, -, -, hw, hd, hkind, -, -⟩ := remove_eq_ok hr
  obtain ⟨rfl, rfl⟩ : ns = names p.path ∧ m = n := by
    simpa using List.append_inj' (hns.symm.trans hnames) rfl
  -- the walk is the one in the larger file system
  obtain ⟨rfl, rfl⟩ := hlead.unique (walk_of_le hle hw)
  obtain ⟨q, hq⟩ := Option.ne_none_iff_exists'.mp hkind
  obtain rfl : q = .directory := Option.some_inj.mp ((hle _ _ hq).symm.trans hdir)
  have hnext := Leads.concat ⟨hw, hd⟩ hn.ne_dot hn.ne_dotdot hq
  exact ⟨_, (stat_directory_iff_leads hne).mpr ⟨_, hns ▸ hnext⟩⟩

/-- Removing a subdirectory fails, or does not end: what the recursive call removed cannot be
removed again. -/
theorem removeEntry_ne_true (h : Locates env fs p root k) (hn : IsName n) (hb : '\\' ∉ n)
    (hdir : fs.kind (root ++ [n]) = some .directory) (hle : w.fs ≤ fs) (fuel : ℕ) :
    ((removeEntry (removeAll fuel) (subPath p n)).run (handler env) w).1 ≠ .returns true := by
  -- where the path names no directory, there is nothing to remove
  have fails : ∀ w' : World, w'.fs ≤ fs →
      (∀ l, stat env w'.fs (cStr (subPath p n).path) ≠ .ok (l, .directory)) →
      ((remove (subPath p n)).run (handler env) w').1 = false := by
    intro w' hle' hne
    cases hr : Posix.remove env w'.fs (cStr (subPath p n).path) with
    | error e => rw [run_remove_of_error env w' _ hr]
    | ok fs' =>
      obtain ⟨l, hl⟩ := stat_subPath_of_remove h hn hb hdir hle' hr
      exact absurd hl (hne l)
  cases hs : namesDirectory env w.fs (cStr (subPath p n).path) with
  | false =>
    have hne : ∀ l, stat env w.fs (cStr (subPath p n).path) ≠ .ok (l, .directory) :=
      fun l hl => by simp [namesDirectory_iff.mpr ⟨l, hl⟩] at hs
    rw [run_removeEntry_of_not env w hs, fails w hle hne]
    simp
  | true =>
    obtain ⟨l, hl⟩ := namesDirectory_iff.mp hs
    rw [run_removeEntry_of_directory env w hs rfl]
    -- after `returns true` the subdirectory is gone
    split_ifs with htrue
    · obtain ⟨e, he⟩ := stat_of_removeAll_true hl (Prod.ext htrue rfl)
      have hle' := (shrinks_removeAll fuel (subPath p n) env w).trans hle
      rw [fails _ hle' (by simp [he])]
      simp
    · exact htrue

/-- **A subdirectory among the entries makes the function fail.** -/
theorem removeEntries_ne_true (h : Locates env fs p root k) (hn : IsName n) (hb : '\\' ∉ n)
    (hdir : fs.kind (root ++ [n]) = some .directory) (hle : w.fs ≤ fs) (fuel rounds : ℕ)
    {dir : Dir} (hmem : n ∈ dir.unread) :
    ((removeEntries (removeAll fuel) p rounds dir).run (handler env) w).1 ≠ .returns true := by
  induction rounds generalizing dir w with
  | zero => exact fun he => by cases he
  | succ rounds ih =>
    obtain ⟨id, _ | ⟨m, rest⟩⟩ := dir
    · cases hmem
    by_cases hm : m = dot ∨ m = dotdot
    · have hne : n ≠ m := by
        rintro rfl
        exact hm.elim hn.ne_dot hn.ne_dotdot
      rw [run_removeEntries_dots env w _ p rounds id hm]
      exact ih hle ((List.mem_cons.mp hmem).resolve_left hne)
    · rw [run_removeEntries_cons env w _ p rounds id hm rest rfl]
      -- the loop goes on behind an entry that was removed, which is not the subdirectory
      split_ifs with htrue
      · have hne : n ≠ m := by
          rintro rfl
          exact removeEntry_ne_true h hn hb hdir hle fuel htrue
        refine ih ?_ ((List.mem_cons.mp hmem).resolve_left hne)
        exact (shrinks_removeEntry (fun q => shrinks_removeAll fuel q) _ env w).trans hle
      · exact htrue

/-- On a directory with a subdirectory the function does not return true. -/
theorem removeAll_ne_true (h : Locates env w.fs p root k) (hb : '\\' ∉ n)
    (hdir : w.fs.kind (root ++ [n]) = some .directory) (fuel : ℕ) :
    ((removeAll fuel p).run (handler env) w).1 ≠ .returns true := by
  cases fuel with
  | zero => exact fun he => by cases he
  | succ fuel =>
    have hchild : w.fs.kind (root ++ [n]) ≠ none := by simp [hdir]
    have hle : ({ w with opened := w.opened + 1 } : World).fs ≤ w.fs := le_rfl
    rw [run_removeAll_of_directory env w fuel h.stat]
    refine removeEntries_ne_true h (FileSystem.isName_of_kind_concat hchild) hb hdir hle fuel
      fuel ?_
    exact mem_listing.mpr (.inr (.inr (FileSystem.mem_children.mpr hchild)))

/-! ## Regular files -/

/-- Removing a regular file goes on with the loop. -/
theorem run_removeEntry_of_regular (h : Locates env w.fs p root k) (hb : '\\' ∉ n)
    (hreg : w.fs.kind (root ++ [n]) = some .regular) (fuel : ℕ) :
    (removeEntry (removeAll fuel) (subPath p n)).run (handler env) w =
      (.returns true, { w with fs := w.fs.erase (root ++ [n]) }) := by
  rw [run_removeEntry_of_not env w (h.namesDirectory_subPath hb hreg),
    run_remove_of_ok env w _ (h.remove_subPath hb hreg)]

/-- **What the loop does on regular files**: it removes them, and finishes. The induction is on
the entries that are still to be read. -/
theorem exists_run_of_regular (fuel : ℕ) (id : ℕ) {es : List Name} {rounds : ℕ}
    (hrounds : es.length < rounds) (hnodup : es.Nodup) (h : Locates env w.fs p root k)
    (hes : ∀ n ∈ es, n ≠ dot → n ≠ dotdot →
      '\\' ∉ n ∧ w.fs.kind (root ++ [n]) = some .regular) :
    ∃ w', (removeEntries (removeAll fuel) p rounds ⟨id, es⟩).run (handler env) w =
        (finishRemoveAll p ⟨id, []⟩).run (handler env) w' ∧
      Locates env w'.fs p root k ∧
      ∀ l, w'.fs.kind l =
        if ∃ n ∈ es, n ≠ dot ∧ n ≠ dotdot ∧ l = root ++ [n] then none else w.fs.kind l := by
  induction es generalizing w rounds with
  | nil =>
    obtain ⟨rounds, rfl⟩ := Nat.exists_eq_add_of_lt hrounds
    exact ⟨w, by simpa using run_removeEntries_nil env w _ p _ id, h, by simp⟩
  | cons n es ih =>
    obtain ⟨rounds, rfl⟩ := Nat.exists_eq_add_one_of_ne_zero (Nat.ne_zero_of_lt hrounds)
    have hlen : es.length < rounds := by simpa using hrounds
    obtain ⟨hnot, hnodup⟩ := List.nodup_cons.mp hnodup
    obtain ⟨hn, hes⟩ := List.forall_mem_cons.mp hes
    by_cases hdots : n = dot ∨ n = dotdot
    · obtain ⟨w', hrun, hloc, hkind⟩ := ih hlen hnodup h hes
      refine ⟨w', ?_, hloc, ?_⟩
      · rw [run_removeEntries_dots env w _ p rounds id hdots, hrun]
      · intro l
        rw [hkind]
        congr 1
        simp only [List.mem_cons, exists_eq_or_imp, eq_iff_iff]
        exact (or_iff_right fun ⟨hd, hdd, _⟩ => hdots.elim hd hdd).symm
    · rw [not_or] at hdots
      obtain ⟨hb, hreg⟩ := hn hdots.1 hdots.2
      have hl0 : root ++ [n] ≠ [] := by simp
      have hchildren : w.fs.children (root ++ [n]) = [] :=
        FileSystem.children_eq_nil (by simp [hreg])
      -- the other entries stay as they are
      have hes' : ∀ m ∈ es, m ≠ dot → m ≠ dotdot → '\\' ∉ m ∧
          (w.fs.erase (root ++ [n])).kind (root ++ [m]) = some .regular := by
        intro m hm hd hdd
        rw [kind_erase_sibling hreg (ne_of_mem_of_not_mem hm hnot)]
        exact hes m hm hd hdd
      obtain ⟨w', hrun, hloc, hkind⟩ :=
        ih (w := { w with fs := w.fs.erase (root ++ [n]) }) hlen hnodup (h.erase hreg) hes'
      refine ⟨w', ?_, hloc, ?_⟩
      · rw [run_removeEntries_cons env w _ p rounds id (not_or.mpr hdots) es
          (run_removeEntry_of_regular h hb hreg fuel), if_pos rfl, hrun]
      · intro l
        rw [hkind, FileSystem.kind_erase hl0 hchildren]
        simp only [List.mem_cons, exists_eq_or_imp, hdots.1, hdots.2, ne_eq, not_false_eq_true,
          true_and]
        by_cases hl : l = root ++ [n] <;> simp [hl]

/-- **What the function does on a directory of regular files** up to the end of the loop. -/
theorem exists_run_of_flat {fuel : ℕ} (hfuel : (w.fs.children root).length + 2 < fuel)
    (h : Locates env w.fs p root k)
    (hflat : ∀ n ∈ w.fs.children root, '\\' ∉ n ∧ w.fs.kind (root ++ [n]) = some .regular) :
    ∃ w' dir, (removeAll (fuel + 1) p).run (handler env) w =
        (finishRemoveAll p dir).run (handler env) w' ∧
      Locates env w'.fs p root k ∧
      ∀ l, w'.fs.kind l =
        if ∃ n ∈ w.fs.children root, l = root ++ [n] then none else w.fs.kind l := by
  have hlen : (env.order w.opened (dot :: dotdot :: w.fs.children root)).length < fuel := by
    rwa [length_listing]
  have hopened : Locates env ({ w with opened := w.opened + 1 } : World).fs p root k := h
  obtain ⟨w', hrun, hloc, hkind⟩ := exists_run_of_regular fuel w.opened hlen
    (nodup_listing env w.fs root w.opened) hopened
    fun n hn hd hdd => hflat n (mem_children_of_mem_listing hn hd hdd)
  refine ⟨w', _, (run_removeAll_of_directory env w fuel h.stat).trans hrun, hloc, ?_⟩
  intro l
  rw [hkind]
  congr 1
  -- the entries are removed in the order in which they are listed
  rw [eq_iff_iff]
  constructor
  · rintro ⟨n, hn, hd, hdd, hl⟩
    exact ⟨n, mem_children_of_mem_listing hn hd hdd, hl⟩
  · rintro ⟨n, hn, hl⟩
    have hname := isName_of_mem_children hn
    exact ⟨n, mem_listing.mpr (.inr (.inr hn)), hname.ne_dot, hname.ne_dotdot, hl⟩

/-! ## The directory itself -/

/-- An empty directory is removed by a path that ends in its name, and is gone then. -/
theorem run_finishRemoveAll_of_name (h : Locates env w.fs p root k) {ns : List Name}
    (hn : names p.path = ns ++ [n]) (hd : n ≠ dot) (hdd : n ≠ dotdot) {d : Loc} {j : ℕ}
    (hlead : Leads w.fs env.symloopMax (env.start p.path) ns d j) (hroot : root = d ++ [n])
    (hc : w.fs.children root = []) (dir : Dir) :
    (finishRemoveAll p dir).run (handler env) w =
      (.returns true, { w with fs := w.fs.erase root }) := by
  have hp : cStr p.path = p.path := cStr_of_nul_notMem h.nul_notMem
  have hrem : Posix.remove env w.fs (cStr p.path) = .ok (w.fs.erase root) := by
    rw [hp, Posix.remove, atLast_of_walk h.path_ne_nil hn hlead.walk hlead.kind, if_neg hd,
      if_neg hdd, ← hroot, h.leads.kind]
    simp [hc]
  have hgone : ∃ e, stat env (w.fs.erase root) (cStr p.path) = .error e := by
    apply stat_eq_error
    rintro ⟨l, b⟩ hw
    -- a walk to the end would lead to the removed directory
    rw [hp] at hw
    obtain ⟨rfl, -⟩ := h.leads.unique (walk_of_le (FileSystem.erase_le root) hw)
    obtain ⟨m, ms, hms⟩ := List.exists_cons_of_ne_nil (show names p.path ≠ [] by simp [hn])
    rw [hms] at hw
    refine absurd ?_ (kind_of_walk_cons hw)
    rw [FileSystem.kind_erase (by simp [hroot]) hc, if_pos rfl]
  obtain ⟨e, he⟩ := hgone
  rw [run_finishRemoveAll, run_remove_of_ok env w p hrem, he]
  rfl

/-- A path that ends otherwise cannot be used to remove the directory. -/
theorem run_finishRemoveAll_of_not (h : Locates env w.fs p root k)
    (hn : ¬ ∃ n ∈ (names p.path).getLast?, n ≠ dot ∧ n ≠ dotdot) (dir : Dir) :
    (finishRemoveAll p dir).run (handler env) w = (.returns false, w) := by
  have hp : cStr p.path = p.path := cStr_of_nul_notMem h.nul_notMem
  have hrem : ∃ e, Posix.remove env w.fs (cStr p.path) = .error e := by
    rw [hp]
    rcases List.eq_nil_or_concat' (names p.path) with hnil | ⟨ns, n, hns⟩
    · exact ⟨_, atLast_of_names_eq_nil h.path_ne_nil hnil⟩
    · obtain ⟨d, j, hlead⟩ := (hns ▸ h.leads).of_append
      rw [Posix.remove, atLast_of_walk h.path_ne_nil hns hlead.walk hlead.kind]
      by_cases hdot : n = dot
      · exact ⟨_, if_pos hdot⟩
      · have hdotdot : n = dotdot := by
          by_contra hdd
          exact hn ⟨n, by simp [hns], hdot, hdd⟩
        exact ⟨_, by rw [if_neg hdot, if_pos hdotdot]⟩
  obtain ⟨e, he⟩ := hrem
  rw [run_finishRemoveAll, run_remove_of_error env w p he, h.stat]
  rfl

/-- Below a directory without subdirectories there are its entries only. -/
theorem kind_eq_none_of_flat
    (hsub : ∀ n ∈ fs.children root, fs.kind (root ++ [n]) ≠ some .directory) {l : Loc}
    (hl : root <+: l) (hne : l ≠ root) (hchild : ¬ ∃ n ∈ fs.children root, l = root ++ [n]) :
    fs.kind l = none := by
  by_contra hkind
  obtain ⟨r, rfl⟩ := hl
  obtain ⟨n, r, rfl⟩ := List.exists_cons_of_ne_nil (show r ≠ [] by simpa using hne)
  have hpre : root ++ [n] <+: root ++ n :: r := ⟨r, by simp⟩
  by_cases he : root ++ [n] = root ++ n :: r
  · rw [← he] at hkind hchild
    exact hchild ⟨n, FileSystem.mem_children.mpr hkind, rfl⟩
  · have hdir := FileSystem.kind_of_prefix hkind hpre he
    exact hsub n (FileSystem.mem_children.mpr (by simp [hdir])) hdir

/-! ## The whole function -/

section Emptied

variable {fs' : FileSystem}
  (hkind : ∀ l, fs'.kind l =
    if ∃ n ∈ fs.children root, l = root ++ [n] then none else fs.kind l)

include hkind

/-- Without its entries a directory is empty. -/
theorem children_emptied : fs'.children root = [] := by
  apply List.eq_nil_iff_forall_not_mem.mpr
  intro m hm
  apply FileSystem.mem_children.mp hm
  rw [hkind]
  split_ifs with hex
  · rfl
  · by_contra hne
    exact hex ⟨m, FileSystem.mem_children.mpr hne, rfl⟩

theorem emptied_le : fs' ≤ fs := by
  intro l q hq
  rw [hkind] at hq
  split_ifs at hq
  exact hq

/-- Without its entries and itself nothing of a flat directory is left. -/
theorem kind_erase_emptied (hroot : root ≠ [])
    (hsub : ∀ n ∈ fs.children root, fs.kind (root ++ [n]) ≠ some .directory) (l : Loc) :
    (fs'.erase root).kind l = if root <+: l then none else fs.kind l := by
  rw [FileSystem.kind_erase hroot (children_emptied hkind), hkind]
  by_cases hpre : root <+: l
  · rw [if_pos hpre]
    split_ifs with hl hex
    · rfl
    · rfl
    · exact kind_eq_none_of_flat hsub hpre hl hex
  · have hl : l ≠ root := fun he => hpre (he ▸ List.prefix_rfl)
    have hex : ¬ ∃ n ∈ fs.children root, l = root ++ [n] := by
      rintro ⟨n, -, rfl⟩
      exact hpre (List.prefix_append root [n])
    rw [if_neg hl, if_neg hex, if_neg hpre]

end Emptied

/-- An entry of a plain tree is a directory or a regular file. -/
theorem IsPlainTree.eq_regular (h : IsPlainTree env fs p root) (hn : n ∈ fs.children root)
    (hne : fs.kind (root ++ [n]) ≠ some .directory) : fs.kind (root ++ [n]) = some .regular := by
  obtain ⟨q, hq⟩ := Option.ne_none_iff_exists'.mp (FileSystem.mem_children.mp hn)
  cases q with
  | directory => exact absurd hq hne
  | regular => exact hq
  | symlink target => exact absurd hq (h.not_symlink _ target (List.prefix_append root [n]))

/-- A path that ends otherwise than in a name removes all entries, but not the directory. -/
theorem not_removesTree_of_not (h : Locates env w.fs p root k)
    (hflat : ∀ n ∈ w.fs.children root, '\\' ∉ n ∧ w.fs.kind (root ++ [n]) = some .regular)
    (hlast : ¬ ∃ n ∈ (names p.path).getLast?, n ≠ dot ∧ n ≠ dotdot) :
    ¬ RemovesTree env w p root := by
  rintro ⟨N, hN⟩
  have hfuel : (w.fs.children root).length + 2 < N + (w.fs.children root).length + 3 := by omega
  obtain ⟨w', dir, hrun, hloc, -⟩ := exists_run_of_flat hfuel h hflat
  have htrue := (hN (N + (w.fs.children root).length + 3 + 1) (by omega)).1
  rw [hrun, run_finishRemoveAll_of_not hloc hlast] at htrue
  cases htrue

/-- **A directory of regular files is removed** by a path that ends in its name. -/
theorem removesTree_of_flat (hroot : Posix.lstat env w.fs p.path = .ok root)
    (h : Locates env w.fs p root k)
    (hflat : ∀ n ∈ w.fs.children root, '\\' ∉ n ∧ w.fs.kind (root ++ [n]) = some .regular)
    (hlast : ∃ n ∈ (names p.path).getLast?, n ≠ dot ∧ n ≠ dotdot) : RemovesTree env w p root := by
  -- the last name of the path is that of the directory
  obtain ⟨n, hn, hd, hdd⟩ := hlast
  obtain ⟨ns, hns⟩ := List.getLast?_eq_some_iff.mp hn
  obtain ⟨d, j, hlead, hrd⟩ := exists_parent hroot hns hd hdd
  have hsub : ∀ n ∈ w.fs.children root, w.fs.kind (root ++ [n]) ≠ some .directory := by
    intro m hm
    simp [(hflat m hm).2]
  refine ⟨(w.fs.children root).length + 4, ?_⟩
  intro fuel hfuel
  obtain ⟨fuel, rfl⟩ : ∃ f, fuel = f + 1 := ⟨fuel - 1, by omega⟩
  have hrounds : (w.fs.children root).length + 2 < fuel := by omega
  obtain ⟨w', dir, hrun, hloc, hkind⟩ := exists_run_of_flat hrounds h hflat
  -- what is left after the loop is the empty directory, and its path still leads there
  have hempty : w'.fs.children root = [] := children_emptied hkind
  obtain ⟨d', j', hlead'⟩ := (hns ▸ hloc.leads).of_append
  obtain ⟨rfl, rfl⟩ := hlead.unique (walk_of_le (emptied_le hkind) hlead'.walk)
  rw [hrun, run_finishRemoveAll_of_name hloc hns hd hdd hlead' hrd hempty]
  exact ⟨rfl, kind_erase_emptied hkind (by simp [hrd]) hsub⟩

/-- **When `remove_all` removes a tree**: exactly when no entry of the directory is a directory,
and the path ends in the name of the directory. -/
theorem removesTree_iff (htree : IsPlainTree env w.fs p root) :
    RemovesTree env w p root ↔
      (∀ n ∈ w.fs.children root, w.fs.kind (root ++ [n]) ≠ some .directory) ∧
        ∃ n ∈ (names p.path).getLast?, n ≠ dot ∧ n ≠ dotdot := by
  obtain ⟨k, h⟩ := exists_locates htree.lstat htree.directory
  have hname : ∀ n ∈ w.fs.children root, '\\' ∉ n := fun n hn =>
    htree.backslash_notMem root n List.prefix_rfl hn
  by_cases hsub : ∀ n ∈ w.fs.children root, w.fs.kind (root ++ [n]) ≠ some .directory
  · have hflat : ∀ n ∈ w.fs.children root,
        '\\' ∉ n ∧ w.fs.kind (root ++ [n]) = some .regular := fun n hn =>
      ⟨hname n hn, htree.eq_regular hn (hsub n hn)⟩
    by_cases hlast : ∃ n ∈ (names p.path).getLast?, n ≠ dot ∧ n ≠ dotdot
    · exact iff_of_true (removesTree_of_flat htree.lstat h hflat hlast) ⟨hsub, hlast⟩
    · exact iff_of_false (not_removesTree_of_not h hflat hlast) fun hboth => hlast hboth.2
  · -- a subdirectory makes every run fail
    refine iff_of_false ?_ fun hboth => hsub hboth.1
    rintro ⟨N, hN⟩
    push Not at hsub
    obtain ⟨n, hn, hdir⟩ := hsub
    exact removeAll_ne_true h (hname n hn) hdir N (hN N le_rfl).1

end Tree

/-- In a file system without links and backslashes every tree is plain. -/
theorem isPlainTree_of_entries {env : Env} {fs : FileSystem} {p : Path} {root : Loc}
    (hroot : Posix.lstat env fs p.path = .ok root) (hdir : fs.kind root = some .directory)
    (hkind : ∀ e ∈ fs.nodes.entries, e.2 = .directory ∨ e.2 = .regular)
    (hname : ∀ e ∈ fs.nodes.entries, ∀ n ∈ e.1, '\\' ∉ n) : IsPlainTree env fs p root := by
  refine ⟨hroot, hdir, ?_, ?_⟩
  · intro l target _ hl
    rcases hkind _ (FileSystem.kind_eq_some.mp hl) with h | h <;> cases h
  · intro l n _ hn
    obtain ⟨q, hq⟩ := Option.ne_none_iff_exists'.mp (FileSystem.mem_children.mp hn)
    exact hname _ (FileSystem.kind_eq_some.mp hq) n (by simp)

theorem removesTree_iff_flatTree :
    RemovesTree (Env.ofCwd []) ⟨flatTree, 0⟩ (.ofString .posix ['t']) [['t']] ↔
      (∀ n ∈ flatTree.children [['t']], flatTree.kind ([['t']] ++ [n]) ≠ some .directory) ∧
        ∃ n ∈ (names (Path.ofString .posix ['t']).path).getLast?, n ≠ dot ∧ n ≠ dotdot :=
  removesTree_iff (isPlainTree_of_entries (by decide) (by decide) (by decide) (by decide))

/-- The directory `/t` with the empty directory `s`. -/
def nestedTree : FileSystem :=
  (FileSystem.rootOnly.addDirectory [] ['t']).addDirectory [['t']] ['s']

/-- The directory `/t` with an empty directory in it is not removed. -/
theorem not_removesTree_nestedTree :
    IsPlainTree (Env.ofCwd []) nestedTree (.ofString .posix ['t']) [['t']] ∧
      ¬ RemovesTree (Env.ofCwd []) ⟨nestedTree, 0⟩ (.ofString .posix ['t']) [['t']] := by
  have htree : IsPlainTree (Env.ofCwd []) nestedTree (.ofString .posix ['t']) [['t']] :=
    isPlainTree_of_entries (by decide) (by decide) (by decide) (by decide)
  refine ⟨htree, ?_⟩
  rintro ⟨N, hN⟩
  obtain ⟨k, h⟩ := exists_locates htree.lstat htree.directory
  have hsub : nestedTree.kind ([['t']] ++ [['s']]) = some .directory := by decide
  exact removeAll_ne_true (w := ⟨nestedTree, 0⟩) h (by decide) hsub N (hN N le_rfl).1

end RcppUtils
