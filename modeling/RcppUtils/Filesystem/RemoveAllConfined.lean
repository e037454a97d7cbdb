import RcppUtils.Filesystem.RemoveAll

/-!
# What `remove_all` may delete

Each removed entry lies in the directory that is being listed. That directory is in the tree as
long as two things do not happen: a name that is read has a backslash, so that its path leads
elsewhere, or an entry is a symbolic link to a directory outside, which is then listed like a
subdirectory.

## Main definitions

* `StaysInTree`: the condition on one call
* `Confined`: the function deletes entries of the tree only
* `IsClosedTree`: a tree without backslashes in names and without links to directories outside

## Main results

* `calls_removeAll_inside`: a call for an entry of the tree deletes entries of the tree
* `confined_of_staysInTree`: the function is confined in every run whose calls stay in the tree
* `IsClosedTree.confined`: the function is confined to every closed tree
* `isClosedTree_of_not_symlink`: a tree without symbolic links is closed
-/

namespace RcppUtils

open Posix Program

/-- The call stays in the tree at `root`: a directory that is found lies in the tree, and a name
that is read has no backslash. -/
def StaysInTree (env : Env) (root : Loc) : SysCall × World → Prop
  | (.stat u, w) => ∀ r ∈ (stat env w.fs u).toOption, r.2 = .directory → root <+: r.1
  | (.readdir dir, _) => ∀ n ∈ dir.unread.head?, '\\' ∉ n
  | _ => True

instance (env : Env) (root : Loc) : DecidablePred (StaysInTree env root)
  | (.stat u, w) => inferInstanceAs
      (Decidable (∀ r ∈ (stat env w.fs u).toOption, r.2 = .directory → root <+: r.1))
  | (.readdir dir, _) => inferInstanceAs (Decidable (∀ n ∈ dir.unread.head?, '\\' ∉ n))
  | (.access _, _) | (.mkdir _, _) | (.remove _, _) | (.opendir _, _) | (.closedir _, _) =>
    inferInstanceAs (Decidable True)

/-- The calls change entries of the tree at `root` only. -/
def Inside (env : Env) (root : Loc) (cs : List (SysCall × World)) : Prop :=
  ∀ c ∈ cs, ∀ l, (handler env c.1 c.2).2.fs.kind l ≠ c.2.fs.kind l → root <+: l

/-- Every call of `remove_all(p)` changes entries of the tree at `root` only, and at the end
every other entry is as it was. -/
structure Confined (env : Env) (w : World) (p : Path) (root : Loc) (fuel : ℕ) : Prop where
  inside : Inside env root ((removeAll fuel p).calls (handler env) w)
  unchanged : ∀ l, ¬ root <+: l →
    ((removeAll fuel p).run (handler env) w).2.fs.kind l = w.fs.kind l

/-! ## The calls of a run -/

section Calls

variable (env : Env) (w : World)

theorem calls_andThen (next : SysProgram Outcome) (o : Outcome) :
    (o.andThen next).calls (handler env) w =
      if o = .returns true then next.calls (handler env) w else [] := by
  rcases o with (_ | _) | _ | _ <;> simp [Outcome.andThen]

theorem calls_removeEntry_of_not {ra : Path → SysProgram Outcome} {sub : Path}
    (h : namesDirectory env w.fs (cStr sub.path) = false) :
    (removeEntry ra sub).calls (handler env) w =
      [(.stat (cStr sub.path), w), (.remove (cStr sub.path), w)] := by
  rw [removeEntry, calls_bind, run_isDirectory, calls_isDirectory, h]
  simp [calls_bind, calls_remove]

theorem calls_removeEntry_of_directory {ra : Path → SysProgram Outcome} {sub : Path}
    (h : namesDirectory env w.fs (cStr sub.path) = true) {o : Outcome} {w' : World}
    (hra : (ra sub).run (handler env) w = (o, w')) :
    (removeEntry ra sub).calls (handler env) w =
      (.stat (cStr sub.path), w) :: ((ra sub).calls (handler env) w ++
        if o = .returns true then [(.remove (cStr sub.path), w')] else []) := by
  rw [removeEntry, calls_bind, run_isDirectory, calls_isDirectory, h]
  simp [calls_bind, hra, calls_andThen, calls_remove]

theorem calls_finishRemoveAll (p : Path) (dir : Dir) :
    (finishRemoveAll p dir).calls (handler env) w =
      [(.closedir dir, w), (.remove (cStr p.path), w),
        (.access (cStr p.path), ((remove p).run (handler env) w).2)] := by
  rw [finishRemoveAll, calls_bind, calls_bind, calls_bind, calls_remove, calls_exists]
  rfl

theorem calls_removeEntries_nil (ra : Path → SysProgram Outcome) (p : Path) (rounds : ℕ)
    (id : ℕ) :
    (removeEntries ra p (rounds + 1) ⟨id, []⟩).calls (handler env) w =
      (.readdir ⟨id, []⟩, w) :: (finishRemoveAll p ⟨id, []⟩).calls (handler env) w := by
  rw [removeEntries, calls_bind]
  rfl

/-- A round that reads the name `n`. -/
theorem calls_removeEntries_readdir (ra : Path → SysProgram Outcome) (p : Path) (rounds : ℕ)
    (id : ℕ) (n : Name) (rest : List Name) :
    (removeEntries ra p (rounds + 1) ⟨id, n :: rest⟩).calls (handler env) w =
      (.readdir ⟨id, n :: rest⟩, w) ::
        (if n = dot ∨ n = dotdot then removeEntries ra p rounds ⟨id, rest⟩
          else removeEntry ra (subPath p n) >>= fun o =>
            o.andThen (removeEntries ra p rounds ⟨id, rest⟩)).calls (handler env) w := by
  rw [removeEntries, calls_bind]
  rfl

theorem calls_removeEntries_dots (ra : Path → SysProgram Outcome) (p : Path) (rounds : ℕ)
    (id : ℕ) {n : Name} (hn : n = dot ∨ n = dotdot) (rest : List Name) :
    (removeEntries ra p (rounds + 1) ⟨id, n :: rest⟩).calls (handler env) w =
      (.readdir ⟨id, n :: rest⟩, w) ::
        (removeEntries ra p rounds ⟨id, rest⟩).calls (handler env) w := by
  rw [calls_removeEntries_readdir, if_pos hn]

theorem calls_removeEntries_cons (ra : Path → SysProgram Outcome) (p : Path) (rounds : ℕ)
    (id : ℕ) {n : Name} (hn : ¬ (n = dot ∨ n = dotdot)) (rest : List Name) {o : Outcome}
    {w' : World} (he : (removeEntry ra (subPath p n)).run (handler env) w = (o, w')) :
    (removeEntries ra p (rounds + 1) ⟨id, n :: rest⟩).calls (handler env) w =
      (.readdir ⟨id, n :: rest⟩, w) :: ((removeEntry ra (subPath p n)).calls (handler env) w ++
        if o = .returns true then (removeEntries ra p rounds ⟨id, rest⟩).calls (handler env) w'
        else []) := by
  rw [calls_removeEntries_readdir, if_neg hn, calls_bind, he, calls_andThen]

theorem calls_removeAll_of_not (fuel : ℕ) {p : Path}
    (h : namesDirectory env w.fs (cStr p.path) = false) :
    (removeAll (fuel + 1) p).calls (handler env) w =
      [(.stat (cStr p.path), w), (.remove (cStr p.path), w)] := by
  rw [removeAll, calls_bind, run_isDirectory, calls_isDirectory, h]
  simp [calls_bind, calls_remove]

theorem calls_removeAll_of_directory (fuel : ℕ) {p : Path} {l : Loc}
    (h : stat env w.fs (cStr p.path) = .ok (l, .directory)) :
    (removeAll (fuel + 1) p).calls (handler env) w =
      (.stat (cStr p.path), w) :: (.opendir (cStr p.path), w) ::
        (removeEntries (removeAll fuel) p fuel
          ⟨w.opened, env.order w.opened (dot :: dotdot :: w.fs.children l)⟩).calls (handler env)
          { w with opened := w.opened + 1 } := by
  have hdir : namesDirectory env w.fs (cStr p.path) = true := namesDirectory_iff.mpr ⟨l, h⟩
  rw [removeAll, calls_bind, run_isDirectory, calls_isDirectory, hdir, if_pos rfl, calls_bind,
    run_opendir env w h]
  rfl

end Calls

section Confinement

variable {env : Env} {root : Loc} {w : World}

theorem inside_nil : Inside env root [] := fun c hc => by cases hc

theorem inside_cons {c : SysCall × World} {cs : List (SysCall × World)} :
    Inside env root (c :: cs) ↔
      (∀ l, (handler env c.1 c.2).2.fs.kind l ≠ c.2.fs.kind l → root <+: l) ∧
        Inside env root cs :=
  List.forall_mem_cons

theorem inside_append {cs cs' : List (SysCall × World)} :
    Inside env root (cs ++ cs') ↔ Inside env root cs ∧ Inside env root cs' :=
  List.forall_mem_append

/-- A call that leaves the file system as it is changes nothing. -/
theorem inside_cons_of_fs_eq {c : SysCall × World} {cs : List (SysCall × World)}
    (h : (handler env c.1 c.2).2.fs = c.2.fs) :
    Inside env root (c :: cs) ↔ Inside env root cs := by
  rw [inside_cons, h]
  simp

/-! ## Paths that lead into the tree -/

/-- What the path `q` can remove is in the tree at `root`. -/
structure Targets (env : Env) (fs : FileSystem) (q : Path) (root : Loc) : Prop where
  nul_notMem : nul ∉ q.path
  inside : ∀ ns n d k, names q.path = ns ++ [n] → n ≠ dot → n ≠ dotdot →
    Leads fs env.symloopMax (env.start q.path) ns d k → root <+: d ++ [n]

theorem Targets.of_le {fs fs' : FileSystem} {q : Path} (h : Targets env fs q root)
    (hle : fs' ≤ fs) : Targets env fs' q root :=
  ⟨h.nul_notMem, fun ns n d k hn hd hdd hlead => h.inside ns n d k hn hd hdd (hlead.of_le hle)⟩

/-- The removal of what a path targets changes the tree only. -/
theorem Targets.inside_remove {q : Path} (h : Targets env w.fs q root) {l : Loc}
    (hl : (handler env (.remove (cStr q.path)) w).2.fs.kind l ≠ w.fs.kind l) : root <+: l := by
  rw [cStr_of_nul_notMem h.nul_notMem] at hl
  have hcall : (handler env (.remove q.path) w).2 =
      (w.update (Posix.remove env w.fs q.path)).2 := rfl
  rw [hcall] at hl
  cases hr : Posix.remove env w.fs q.path with
  | error e => simp [hr, World.update] at hl
  | ok fs' =>
    obtain ⟨ns, n, d, b, -, hn, hd, hdd, hw, hdir, -, hc, rfl⟩ := remove_eq_ok hr
    -- only the entry that the path names is gone
    have hne : l = d ++ [n] := by
      by_contra hne
      apply hl
      rw [hr]
      show (w.fs.erase (d ++ [n])).kind l = _
      rw [FileSystem.kind_erase (by simp) hc, if_neg hne]
    exact hne ▸ h.inside ns n d b hn hd hdd ⟨hw, hdir⟩

/-- The path of an entry of a directory in the tree targets the tree. -/
theorem targets_subPath {fs : FileSystem} {q : Path} {d : Loc} {k : ℕ}
    (h : Locates env fs q d k) (hroot : root <+: d) (hle : w.fs ≤ fs) {n : Name} (hn : IsName n)
    (hb : '\\' ∉ n) : Targets env w.fs (subPath q n) root := by
  obtain ⟨-, hnames, hlead⟩ := h.subPath hn hb
  refine ⟨nul_notMem_subPath h.nul_notMem hn hb, ?_⟩
  intro ns m d' k' hns _ _ hlead'
  obtain ⟨rfl, rfl⟩ : ns = names q.path ∧ m = n := by
    simpa using List.append_inj' (hns.symm.trans hnames) rfl
  -- the directory is the one that is listed, because nothing was added since
  obtain ⟨rfl, -⟩ := hlead.unique (walk_of_le hle hlead'.walk)
  exact hroot.trans (List.prefix_append _ _)

/-! ## The run lemmas -/

section Recursion

variable {ra : Path → SysProgram Outcome} (hshrinks : ∀ q, Shrinks (ra q))
  (hra : ∀ q w, Targets env w.fs q root →
    (∀ c ∈ (ra q).calls (handler env) w, StaysInTree env root c) →
    Inside env root ((ra q).calls (handler env) w))

include hshrinks hra

/-- **Removing one entry** of a directory in the tree changes the tree only, if the recursive
call does. -/
theorem calls_removeEntry_inside {sub : Path} (h : Targets env w.fs sub root)
    (hstays : ∀ c ∈ (removeEntry ra sub).calls (handler env) w, StaysInTree env root c) :
    Inside env root ((removeEntry ra sub).calls (handler env) w) := by
  cases hs : namesDirectory env w.fs (cStr sub.path) with
  | false =>
    rw [calls_removeEntry_of_not env w hs, inside_cons_of_fs_eq rfl, inside_cons]
    exact ⟨fun l => h.inside_remove, inside_nil⟩
  | true =>
    rw [calls_removeEntry_of_directory env w hs rfl] at hstays ⊢
    rw [List.forall_mem_cons, List.forall_mem_append] at hstays
    rw [inside_cons_of_fs_eq rfl, inside_append]
    -- the recursive call, and behind it the removal of the same path
    refine ⟨hra sub w h hstays.2.1, ?_⟩
    split_ifs
    · rw [inside_cons]
      exact ⟨fun l => (h.of_le (hshrinks sub env w)).inside_remove, inside_nil⟩
    · exact inside_nil

/-- **The loop over a directory in the tree** changes the tree only, if the recursive call does.
The induction is on the rounds. -/
theorem calls_removeEntries_inside {fs : FileSystem} {q : Path} {d : Loc} {k : ℕ}
    (h : Locates env fs q d k) (hroot : root <+: d) (hq : Targets env fs q root) {rounds : ℕ}
    {dir : Dir}
    (hdir : ∀ n ∈ dir.unread, n = dot ∨ n = dotdot ∨ IsName n) (hle : w.fs ≤ fs)
    (hstays : ∀ c ∈ (removeEntries ra q rounds dir).calls (handler env) w,
      StaysInTree env root c) :
    Inside env root ((removeEntries ra q rounds dir).calls (handler env) w) := by
  induction rounds generalizing dir w with
  | zero => exact inside_nil
  | succ rounds ih =>
    obtain ⟨id, _ | ⟨n, rest⟩⟩ := dir
    · rw [calls_removeEntries_nil, calls_finishRemoveAll, inside_cons_of_fs_eq rfl,
        inside_cons_of_fs_eq rfl, inside_cons, inside_cons_of_fs_eq rfl]
      -- of the calls behind the loop only `remove` changes anything
      exact ⟨fun l => (hq.of_le hle).inside_remove, inside_nil⟩
    obtain ⟨hn, hrest⟩ := List.forall_mem_cons.mp hdir
    by_cases hdots : n = dot ∨ n = dotdot
    · rw [calls_removeEntries_dots env w ra q rounds id hdots] at hstays ⊢
      rw [inside_cons_of_fs_eq rfl]
      exact ih hrest hle (List.forall_mem_cons.mp hstays).2
    · rw [calls_removeEntries_cons env w ra q rounds id hdots rest rfl] at hstays ⊢
      rw [List.forall_mem_cons, List.forall_mem_append] at hstays
      -- the name that is read has no backslash, so its path leads into the directory
      obtain ⟨hread, hentry, hloop⟩ := hstays
      rw [not_or] at hdots
      have hname : IsName n := (hn.resolve_left hdots.1).resolve_left hdots.2
      have hb : '\\' ∉ n := hread n (by simp)
      have hsub := targets_subPath h hroot hle hname hb
      rw [inside_cons_of_fs_eq rfl, inside_append]
      refine ⟨calls_removeEntry_inside hshrinks hra hsub hentry, ?_⟩
      split_ifs at hloop ⊢
      · exact ih hrest ((shrinks_removeEntry hshrinks _ env w).trans hle) hloop
      · exact inside_nil

end Recursion

/-- **A call for an entry of the tree** changes the tree only. The induction is on the fuel. -/
theorem calls_removeAll_inside {fuel : ℕ} {q : Path} (hq : Targets env w.fs q root)
    (hstays : ∀ c ∈ (removeAll fuel q).calls (handler env) w, StaysInTree env root c) :
    Inside env root ((removeAll fuel q).calls (handler env) w) := by
  induction fuel generalizing q w with
  | zero => exact inside_nil
  | succ fuel ih =>
    cases hs : namesDirectory env w.fs (cStr q.path) with
    | false =>
      rw [calls_removeAll_of_not env w fuel hs, inside_cons_of_fs_eq rfl, inside_cons]
      exact ⟨fun l => hq.inside_remove, inside_nil⟩
    | true =>
      obtain ⟨d, hd⟩ := namesDirectory_iff.mp hs
      rw [calls_removeAll_of_directory env w fuel hd] at hstays ⊢
      rw [List.forall_mem_cons, List.forall_mem_cons] at hstays
      obtain ⟨hstat, -, hloop⟩ := hstays
      rw [inside_cons_of_fs_eq rfl, inside_cons_of_fs_eq (by simp [handler, hd])]
      -- the directory that the path names lies in the tree, since the test stays there
      have hroot : root <+: d := hstat (d, .directory) (by simp [hd, Except.toOption]) rfl
      have hdir := hd
      rw [cStr_of_nul_notMem hq.nul_notMem] at hdir
      have hne : q.path ≠ [] := (stat_directory_iff.mp hdir).1
      obtain ⟨k, hlead⟩ := (stat_directory_iff_leads hne).mp hdir
      have hle : ({ w with opened := w.opened + 1 } : World).fs ≤ w.fs := le_rfl
      refine calls_removeEntries_inside (shrinks_removeAll fuel) (fun q w h hs => ih h hs)
        ⟨hq.nul_notMem, hne, hlead⟩ hroot hq ?_ hle hloop
      -- the stream lists `.`, `..` and the entries
      exact fun n hn => (mem_listing.mp hn).imp_right (Or.imp_right isName_of_mem_children)

/-- The path of a directory targets the tree at the directory. -/
theorem targets_of_lstat {p : Path} (hroot : lstat env w.fs p.path = .ok root)
    (hdir : w.fs.kind root = some .directory) : Targets env w.fs p root := by
  obtain ⟨k, h⟩ := exists_locates hroot hdir
  refine ⟨h.nul_notMem, ?_⟩
  intro ns n d j hn hd hdd hlead
  obtain ⟨d', j', hlead', rfl⟩ := exists_parent hroot hn hd hdd
  obtain ⟨rfl, -⟩ := hlead.unique hlead'.walk
  exact List.prefix_rfl

/-- What all calls keep is kept by the whole run. -/
theorem Targets.confined {p : Path} (hp : Targets env w.fs p root) {fuel : ℕ}
    (hstays : ∀ c ∈ (removeAll fuel p).calls (handler env) w, StaysInTree env root c) :
    Confined env w p root fuel := by
  have hinside := calls_removeAll_inside hp hstays
  refine ⟨hinside, ?_⟩
  intro l hl
  refine run_invariant (I := fun w' : World => w'.fs.kind l = w.fs.kind l) ?_ rfl
  intro c hc hkind
  -- a call that changes the node lies in the tree
  by_contra hne
  exact hl (hinside c hc l fun he => hne (he.trans hkind))

/-! ## Trees that no path leaves -/

variable {fs : FileSystem}

/-- No entry of the tree at `root` has a backslash in its name, and none that names a directory,
symbolic links followed, names one outside. -/
structure IsClosedTree (fs : FileSystem) (root : Loc) : Prop where
  backslash_notMem : ∀ d n, root <+: d → n ∈ fs.children d → '\\' ∉ n
  inside : ∀ b d n r, root <+: d → IsName n → walk fs b d [n] = .ok r →
    fs.kind r.1 = some .directory → root <+: r.1

/-- A tree without backslashes in its names and without symbolic links is closed. -/
theorem isClosedTree_of_not_symlink
    (hb : ∀ d n, root <+: d → n ∈ fs.children d → '\\' ∉ n)
    (hlink : ∀ l target, root <+: l → fs.kind l ≠ some (.symlink target)) :
    IsClosedTree fs root := by
  refine ⟨hb, ?_⟩
  intro b d n r hroot hn hw _
  obtain ⟨b', cur, pre, hop, hrest⟩ := Hop.of_walk hw
  have hbelow : root <+: d ++ [n] := hroot.trans (List.prefix_append _ _)
  cases hop with
  | dot => exact absurd rfl hn.ne_dot
  | dotdot => exact absurd rfl hn.ne_dotdot
  | node =>
    rw [List.append_nil, walk_nil] at hrest
    exact Except.ok.inj hrest ▸ hbelow
  | link _ _ _ htarget => exact absurd htarget (hlink _ _ hbelow)

/-- If the path `q` names a directory, symbolic links followed, then one in the tree at `root`. -/
structure NamesInside (env : Env) (fs : FileSystem) (q : Path) (root : Loc) : Prop where
  nul_notMem : nul ∉ q.path
  inside : ∀ l, stat env fs q.path = .ok (l, .directory) → root <+: l

/-- A directory that is found after removals was there before. -/
theorem stat_directory_of_le {fs fs' : FileSystem} (hle : fs' ≤ fs) {u : List Char} {l : Loc}
    (h : stat env fs' u = .ok (l, .directory)) : stat env fs u = .ok (l, .directory) := by
  have hne : u ≠ [] := (stat_directory_iff.mp h).1
  obtain ⟨k, hlead⟩ := (stat_directory_iff_leads hne).mp h
  exact (stat_directory_iff_leads hne).mpr ⟨k, hlead.of_le hle⟩

theorem NamesInside.staysInTree {q : Path} (h : NamesInside env fs q root) (hle : w.fs ≤ fs) :
    StaysInTree env root (.stat (cStr q.path), w) := by
  rintro ⟨l, kind⟩ hl rfl
  have hstat : stat env w.fs (cStr q.path) = .ok (l, .directory) := by
    cases hs : stat env w.fs (cStr q.path) with
    | error e => simp [hs, Except.toOption] at hl
    | ok r => simpa [hs, Except.toOption] using hl
  rw [cStr_of_nul_notMem h.nul_notMem] at hstat
  exact h.inside l (stat_directory_of_le hle hstat)

/-- The path of an entry of a directory in a closed tree names a directory in the tree, if any. -/
theorem IsClosedTree.namesInside (htree : IsClosedTree fs root) {q : Path} {d : Loc} {k : ℕ}
    (h : Locates env fs q d k) (hroot : root <+: d) {n : Name} (hn : IsName n) (hb : '\\' ∉ n) :
    NamesInside env fs (subPath q n) root := by
  obtain ⟨-, hnames, hlead⟩ := h.subPath hn hb
  refine ⟨nul_notMem_subPath h.nul_notMem hn hb, ?_⟩
  intro l hl
  obtain ⟨j, hsub⟩ := (stat_directory_iff_leads (subPath_path_ne_nil hn hb)).mp hl
  -- the last step of the walk starts from the directory
  have hstep := hsub.walk
  rw [hnames, hlead.walk_concat] at hstep
  exact htree.inside k d n (l, j) hroot hn hstep hsub.kind

/-- Removing one entry stays in the tree, if the recursive call does. -/
theorem calls_removeEntry_staysInTree {ra : Path → SysProgram Outcome} {sub : Path}
    (hra : ∀ c ∈ (ra sub).calls (handler env) w, StaysInTree env root c)
    (hsub : NamesInside env fs sub root) (hle : w.fs ≤ fs) :
    ∀ c ∈ (removeEntry ra sub).calls (handler env) w, StaysInTree env root c := by
  have hstat := hsub.staysInTree hle
  cases hs : namesDirectory env w.fs (cStr sub.path) with
  | false =>
    rw [calls_removeEntry_of_not env w hs, List.forall_mem_cons]
    exact ⟨hstat, by simp [StaysInTree]⟩
  | true =>
    rw [calls_removeEntry_of_directory env w hs rfl, List.forall_mem_cons, List.forall_mem_append]
    refine ⟨hstat, hra, ?_⟩
    split_ifs <;> simp [StaysInTree]

/-- The loop over a directory of a closed tree stays in the tree, if the recursive call does. The
induction is on the rounds. -/
theorem calls_removeEntries_staysInTree {ra : Path → SysProgram Outcome}
    (hshrinks : ∀ q, Shrinks (ra q))
    (hra : ∀ q w, NamesInside env fs q root → w.fs ≤ fs →
      ∀ c ∈ (ra q).calls (handler env) w, StaysInTree env root c)
    (htree : IsClosedTree fs root) {q : Path} {d : Loc} {k : ℕ} (h : Locates env fs q d k)
    (hroot : root <+: d) {rounds : ℕ} {dir : Dir}
    (hdir : ∀ n ∈ dir.unread, n = dot ∨ n = dotdot ∨ n ∈ fs.children d) (hle : w.fs ≤ fs) :
    ∀ c ∈ (removeEntries ra q rounds dir).calls (handler env) w, StaysInTree env root c := by
  induction rounds generalizing dir w with
  | zero =>
    intro c hc
    cases hc
  | succ rounds ih =>
    obtain ⟨id, _ | ⟨n, rest⟩⟩ := dir
    · rw [calls_removeEntries_nil, calls_finishRemoveAll]
      simp [StaysInTree]
    obtain ⟨hn, hrest⟩ := List.forall_mem_cons.mp hdir
    by_cases hdots : n = dot ∨ n = dotdot
    · rw [calls_removeEntries_dots env w ra q rounds id hdots, List.forall_mem_cons]
      refine ⟨?_, ih hrest hle⟩
      rintro m hm
      obtain rfl : n = m := by simpa using hm
      rcases hdots with rfl | rfl <;> simp [dot, dotdot]
    · rw [not_or] at hdots
      have hchild : n ∈ fs.children d := (hn.resolve_left hdots.1).resolve_left hdots.2
      have hname := isName_of_mem_children hchild
      have hb : '\\' ∉ n := htree.backslash_notMem d n hroot hchild
      have hsub := htree.namesInside h hroot hname hb
      rw [calls_removeEntries_cons env w ra q rounds id (not_or.mpr hdots) rest rfl,
        List.forall_mem_cons, List.forall_mem_append]
      -- the name that is read, the removal of the entry, and the rest of the loop
      refine ⟨?_, ?_, ?_⟩
      · intro m hm
        obtain rfl : n = m := by simpa using hm
        exact hb
      · exact calls_removeEntry_staysInTree (hra _ _ hsub hle) hsub hle
      · split_ifs
        · exact ih hrest ((shrinks_removeEntry hshrinks _ env w).trans hle)
        · simp

/-- **Every run on a closed tree stays in the tree.** The induction is on the fuel. -/
theorem calls_removeAll_staysInTree (htree : IsClosedTree fs root) {fuel : ℕ} {q : Path}
    (hq : NamesInside env fs q root) (hle : w.fs ≤ fs) :
    ∀ c ∈ (removeAll fuel q).calls (handler env) w, StaysInTree env root c := by
  induction fuel generalizing q w with
  | zero =>
    intro c hc
    cases hc
  | succ fuel ih =>
    cases hs : namesDirectory env w.fs (cStr q.path) with
    | false =>
      rw [calls_removeAll_of_not env w fuel hs, List.forall_mem_cons]
      exact ⟨hq.staysInTree hle, by simp [StaysInTree]⟩
    | true =>
      obtain ⟨d, hd⟩ := namesDirectory_iff.mp hs
      rw [calls_removeAll_of_directory env w fuel hd, List.forall_mem_cons, List.forall_mem_cons]
      refine ⟨hq.staysInTree hle, trivial, ?_⟩
      rw [cStr_of_nul_notMem hq.nul_notMem] at hd
      -- the path led to this directory before the first removal too
      have hd' := stat_directory_of_le hle hd
      have hne : q.path ≠ [] := (stat_directory_iff.mp hd).1
      obtain ⟨k, hlead⟩ := (stat_directory_iff_leads hne).mp hd'
      refine calls_removeEntries_staysInTree (shrinks_removeAll fuel) (fun q w h hle => ih h hle)
        htree ⟨hq.nul_notMem, hne, hlead⟩ (hq.inside d hd') ?_ hle
      -- what is listed was there before
      intro n hn
      refine (mem_listing.mp hn).imp_right (Or.imp_right fun hn => ?_)
      have hkind := FileSystem.kind_ne_none_of_le hle (FileSystem.mem_children.mp hn)
      exact FileSystem.mem_children.mpr hkind

/-! ## The whole function -/

/-- **`remove_all` is confined to the tree** in every run whose calls stay in the tree. -/
theorem confined_of_staysInTree {p : Path} (hroot : lstat env w.fs p.path = .ok root)
    (hdir : w.fs.kind root = some .directory) (fuel : ℕ)
    (hstays : ∀ c ∈ (removeAll fuel p).calls (handler env) w, StaysInTree env root c) :
    Confined env w p root fuel :=
  (targets_of_lstat hroot hdir).confined hstays

/-- **`remove_all` is confined to a closed tree.** -/
theorem IsClosedTree.confined (htree : IsClosedTree w.fs root) {p : Path}
    (hroot : lstat env w.fs p.path = .ok root) (hdir : w.fs.kind root = some .directory)
    (fuel : ℕ) : Confined env w p root fuel := by
  obtain ⟨k, h⟩ := exists_locates hroot hdir
  apply (targets_of_lstat hroot hdir).confined
  refine calls_removeAll_staysInTree htree ⟨h.nul_notMem, ?_⟩ le_rfl
  intro l hl
  obtain ⟨j, hlead⟩ := (stat_directory_iff_leads h.path_ne_nil).mp hl
  obtain ⟨rfl, -⟩ := h.leads.unique hlead.walk
  exact List.prefix_rfl

end Confinement

/-- The directory `/t` with the link `k` to the directory `/o`, which has the file `f`. -/
def linkTree : FileSystem where
  nodes := ((((AList.singleton [] .directory).insert [['o']] .directory).insert [['o'], ['f']]
    .regular).insert [['t']] .directory).insert [['t'], ['k']] (.symlink ['/', 'o'])
  root := by decide
  parent := by decide
  isName := by decide

/-- The directory `/t` with the file `\x`, and the file `/x`. -/
def backslashTree : FileSystem where
  nodes := (((AList.singleton [] .directory).insert [['x']] .regular).insert [['t']]
    .directory).insert [['t'], ['\\', 'x']] .regular
  root := by decide
  parent := by decide
  isName := by decide

theorem confined_linkTree_o :
    Confined (Env.ofCwd []) ⟨linkTree, 0⟩ (.ofString .posix ['o']) [['o']] 9 :=
  confined_of_staysInTree (by decide) (by decide) 9 (by decide)

/-- The file `/o/f` is deleted through the link `/t/k`, and the file `/x` is deleted for the entry
`\x` of `/t`. -/
theorem not_confined :
    ¬ Confined (Env.ofCwd []) ⟨linkTree, 0⟩ (.ofString .posix ['t']) [['t']] 9 ∧
      ¬ Confined (Env.ofCwd []) ⟨backslashTree, 0⟩ (.ofString .posix ['t']) [['t']] 9 := by
  constructor
  · intro h
    have hkind := h.unchanged [['o'], ['f']] (by decide)
    revert hkind
    decide
  · intro h
    have hkind := h.unchanged [['x']] (by decide)
    revert hkind
    decide

end RcppUtils
