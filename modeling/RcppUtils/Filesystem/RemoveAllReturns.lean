import Mathlib.Data.Finset.Lattice.Fold
import RcppUtils.Filesystem.RemoveAll

/-!
# When `remove_all` returns

The function follows symbolic links to directories, and they may lead back. Each call for a
subdirectory goes one level down in the tree or uses up one of the links that a resolution may
follow, so that the calls come to an end on a cycle of links too. They do not when the path has an
embedded null: then the path of each entry is cut off before the name of the entry, and it is the
directory again that is listed.

## Main definitions

* `stepsLeft`: how often the function may still go down
* `ReturnsFrom`: the function returns, with every amount of fuel from a bound on

## Main results

* `returnsFrom_removeAll`: a path without a null
* `run_removeAll_of_nul`: a path with a null that names a directory with an entry
* `returns_iff`: the exact condition
-/

namespace RcppUtils

open Posix Program

/-- The length of the longest location. -/
def depth (fs : FileSystem) : ℕ := fs.nodes.keys.toFinset.sup List.length

/-- How often a walk that has led to `d` with `k` links left may still go down. -/
def stepsLeft (fs : FileSystem) (k : ℕ) (d : Loc) : ℕ :=
  k * (depth fs + 1) + (depth fs - d.length)

/-- With `N` units of fuel or more the computation returns, always with the same result. -/
def ReturnsFrom (env : Env) (w : World) (N : ℕ) (m : ℕ → SysProgram Outcome) : Prop :=
  ∃ b w', ∀ fuel ≥ N, (m fuel).run (handler env) w = (.returns b, w')

theorem ReturnsFrom.mono {env : Env} {w : World} {N N' : ℕ} {m : ℕ → SysProgram Outcome}
    (h : ReturnsFrom env w N m) (hN : N ≤ N') : ReturnsFrom env w N' m := by
  obtain ⟨b, w', hrun⟩ := h
  exact ⟨b, w', fun fuel hfuel => hrun fuel (hN.trans hfuel)⟩

section StepsLeft

variable {fs : FileSystem} {k k' : ℕ} {d d' : Loc} {n : Name}

theorem length_le_depth (hd : fs.kind d ≠ none) : d.length ≤ depth fs :=
  Finset.le_sup (f := List.length) (List.mem_toFinset.mpr (FileSystem.mem_keys.mpr hd))

/-- The name of an entry leads down, or uses a link up. -/
theorem stepsLeft_lt (hn : n ≠ dot) (hnn : n ≠ dotdot) (h : walk fs k d [n] = .ok (d', k'))
    (hd' : fs.kind d' ≠ none) : stepsLeft fs k' d' < stepsLeft fs k d := by
  have hlen := length_le_depth hd'
  -- the entry itself lies one level down; a link leaves fewer links to follow
  rcases walk_singleton hn hnn h with ⟨rfl, rfl⟩ | hlt
  · rw [List.length_append, List.length_singleton] at hlen
    rw [stepsLeft, stepsLeft, List.length_append, List.length_singleton]
    omega
  · have hmul : (k' + 1) * (depth fs + 1) ≤ k * (depth fs + 1) := Nat.mul_le_mul_right _ hlt
    rw [Nat.add_mul, Nat.one_mul] at hmul
    rw [stepsLeft, stepsLeft]
    omega

/-- A directory has fewer entries than there are nodes in a larger file system. -/
theorem length_children_le {fs₀ : FileSystem} (hle : fs ≤ fs₀) (d : Loc) :
    (fs.children d).length ≤ fs₀.nodes.keys.length := by
  have hsub : fs.children d ⊆ fs₀.children d := by
    intro n hn
    rw [FileSystem.mem_children] at hn ⊢
    exact FileSystem.kind_ne_none_of_le hle hn
  have hlen := (List.Nodup.subperm (FileSystem.nodup_children d) hsub).length_le
  exact hlen.trans (List.length_filterMap_le _ _)

end StepsLeft

/-! ## Paths without a null -/

section Returns

variable {env : Env} {w : World} {fs fs₀ : FileSystem} {q : Path} {d : Loc} {k N : ℕ} {n : Name}

/-- The loop returns, if the removal of each entry does. The induction is on the entries that are
still to be read. -/
theorem returnsFrom_removeEntries {es : List Name} (id : ℕ)
    (hentry : ∀ n ∈ es, n ≠ dot → n ≠ dotdot → ∀ w : World, w.fs ≤ fs →
      ReturnsFrom env w N fun fuel => removeEntry (removeAll fuel) (subPath q n))
    (hle : w.fs ≤ fs) :
    ∃ b w', ∀ fuel ≥ N, ∀ rounds > es.length,
      (removeEntries (removeAll fuel) q rounds ⟨id, es⟩).run (handler env) w =
        (.returns b, w') := by
  induction es generalizing w with
  | nil =>
    obtain ⟨b, w', hrun⟩ : ∃ b w', (finishRemoveAll q ⟨id, []⟩).run (handler env) w =
        (.returns b, w') := ⟨_, _, run_finishRemoveAll env w q _⟩
    refine ⟨b, w', ?_⟩
    intro fuel _ rounds hrounds
    obtain ⟨rounds, rfl⟩ := Nat.exists_eq_add_one_of_ne_zero (Nat.ne_zero_of_lt hrounds)
    rw [run_removeEntries_nil, hrun]
  | cons n es ih =>
    obtain ⟨hn, hes⟩ := List.forall_mem_cons.mp hentry
    by_cases hdots : n = dot ∨ n = dotdot
    · obtain ⟨b, w', hrun⟩ := ih hes hle
      refine ⟨b, w', ?_⟩
      intro fuel hfuel rounds hrounds
      obtain ⟨rounds, rfl⟩ := Nat.exists_eq_add_one_of_ne_zero (Nat.ne_zero_of_lt hrounds)
      rw [run_removeEntries_dots env w _ q rounds id hdots]
      exact hrun fuel hfuel rounds (by simpa using hrounds)
    rw [not_or] at hdots
    obtain ⟨b, w', hrun⟩ := hn hdots.1 hdots.2 w hle
    -- the loop ends at the first entry that is not removed
    cases b with
    | false =>
      refine ⟨false, w', ?_⟩
      intro fuel hfuel rounds hrounds
      obtain ⟨rounds, rfl⟩ := Nat.exists_eq_add_one_of_ne_zero (Nat.ne_zero_of_lt hrounds)
      rw [run_removeEntries_cons env w _ q rounds id (not_or.mpr hdots) es (hrun fuel hfuel),
        if_neg (by simp)]
    | true =>
      -- the removals of the other entries start from a smaller file system
      have hle' : w'.fs ≤ fs := by
        have hshrinks := shrinks_removeEntry (shrinks_removeAll N) (subPath q n) env w
        rw [hrun N le_rfl] at hshrinks
        exact hshrinks.trans hle
      obtain ⟨b, w'', hrest⟩ := ih hes hle'
      refine ⟨b, w'', ?_⟩
      intro fuel hfuel rounds hrounds
      obtain ⟨rounds, rfl⟩ := Nat.exists_eq_add_one_of_ne_zero (Nat.ne_zero_of_lt hrounds)
      rw [run_removeEntries_cons env w _ q rounds id (not_or.mpr hdots) es (hrun fuel hfuel),
        if_pos rfl]
      exact hrest fuel hfuel rounds (by simpa using hrounds)

/-- The removal of an entry returns, if the call for a subdirectory does. -/
theorem returnsFrom_removeEntry {sub : Path}
    (hra : namesDirectory env w.fs (cStr sub.path) = true →
      ReturnsFrom env w N fun fuel => removeAll fuel sub) :
    ReturnsFrom env w N fun fuel => removeEntry (removeAll fuel) sub := by
  cases hs : namesDirectory env w.fs (cStr sub.path) with
  | false =>
    refine ⟨((remove sub).run (handler env) w).1, ((remove sub).run (handler env) w).2, ?_⟩
    intro fuel _
    exact run_removeEntry_of_not env w hs
  | true =>
    obtain ⟨b, w', hrun⟩ := hra hs
    cases b with
    | false =>
      refine ⟨false, w', ?_⟩
      intro fuel hfuel
      rw [run_removeEntry_of_directory env w hs (hrun fuel hfuel), if_neg (by simp)]
    | true =>
      refine ⟨((remove sub).run (handler env) w').1, ((remove sub).run (handler env) w').2, ?_⟩
      intro fuel hfuel
      rw [run_removeEntry_of_directory env w hs (hrun fuel hfuel), if_pos rfl]

/-- A call that names no directory returns. -/
theorem returnsFrom_removeAll_of_not (h : namesDirectory env w.fs (cStr q.path) = false)
    (hN : 0 < N) : ReturnsFrom env w N fun fuel => removeAll fuel q := by
  refine ⟨((remove q).run (handler env) w).1, ((remove q).run (handler env) w).2, ?_⟩
  intro fuel hfuel
  obtain ⟨fuel, rfl⟩ : ∃ f, fuel = f + 1 := ⟨fuel - 1, by omega⟩
  exact run_removeAll_of_not env w fuel h

/-- A call for a directory returns, if the removal of each of its entries does. -/
theorem returnsFrom_removeAll_of_directory
    (h : stat env w.fs (cStr q.path) = .ok (d, .directory)) (hN : (w.fs.children d).length + 2 < N)
    (hentry : ∀ n ∈ w.fs.children d, ∀ w' : World, w'.fs ≤ w.fs →
      ReturnsFrom env w' N fun fuel => removeEntry (removeAll fuel) (subPath q n)) :
    ReturnsFrom env w (N + 1) fun fuel => removeAll fuel q := by
  have hes : ∀ n ∈ env.order w.opened (dot :: dotdot :: w.fs.children d), n ≠ dot → n ≠ dotdot →
      ∀ w' : World, w'.fs ≤ w.fs →
        ReturnsFrom env w' N fun fuel => removeEntry (removeAll fuel) (subPath q n) := by
    intro n hn hd hdd
    exact hentry n (mem_children_of_mem_listing hn hd hdd)
  have hle : ({ w with opened := w.opened + 1 } : World).fs ≤ w.fs := le_rfl
  obtain ⟨b, w', hrun⟩ := returnsFrom_removeEntries w.opened hes hle
  refine ⟨b, w', ?_⟩
  intro fuel hfuel
  obtain ⟨fuel, rfl⟩ : ∃ f, fuel = f + 1 := ⟨fuel - 1, by omega⟩
  rw [run_removeAll_of_directory env w fuel h]
  refine hrun fuel (by omega) fuel ?_
  rw [length_listing]
  omega

/-- A call for a path without a null returns. The induction is on the steps left. -/
theorem returnsFrom_of_locates (hb : ∀ d n, n ∈ fs₀.children d → '\\' ∉ n) {m : ℕ}
    (h : Locates env w.fs q d k) (hle : w.fs ≤ fs₀) (hm : stepsLeft fs₀ k d ≤ m) :
    ReturnsFrom env w (fs₀.nodes.keys.length + 4 + m) fun fuel => removeAll fuel q := by
  induction m using Nat.strong_induction_on generalizing w q d k with
  | _ m ih =>
    have hlen := length_children_le hle d
    have hN : (w.fs.children d).length + 2 < fs₀.nodes.keys.length + 3 + m := by omega
    have hcall := returnsFrom_removeAll_of_directory h.stat hN ?_
    · rwa [show fs₀.nodes.keys.length + 4 + m = fs₀.nodes.keys.length + 3 + m + 1 by omega]
    intro n hn w' hle'
    have hname := isName_of_mem_children hn
    have hkind := FileSystem.kind_ne_none_of_le hle (FileSystem.mem_children.mp hn)
    have hback : '\\' ∉ n := hb d n (FileSystem.mem_children.mpr hkind)
    apply returnsFrom_removeEntry
    -- what an entry leads to is called with fewer steps left
    intro hdir
    obtain ⟨hc, hnames, -⟩ := h.subPath hname hback
    obtain ⟨d', hd'⟩ := namesDirectory_iff.mp hdir
    rw [hc] at hd'
    have hne : (subPath q n).path ≠ [] := subPath_path_ne_nil hname hback
    obtain ⟨k', hlead⟩ := (stat_directory_iff_leads hne).mp hd'
    have hloc : Locates env w'.fs (subPath q n) d' k' :=
      ⟨nul_notMem_subPath h.nul_notMem hname hback, hne, hlead⟩
    -- the way to the entry goes on from the directory by one name
    have hstep : walk fs₀ k d [n] = .ok (d', k') := by
      have hwalk := walk_of_le (hle'.trans hle) hlead.walk
      have hstart : env.start (subPath q n).path = env.start q.path :=
        start_eq_of_absolute_eq (parse_subPath h.path_ne_nil hname hback).1
      rwa [hnames, hstart, (h.leads.of_le hle).walk_concat] at hwalk
    have hd₀ : fs₀.kind d' ≠ none :=
      FileSystem.kind_ne_none_of_le (hle'.trans hle) (by simp [hlead.kind])
    have hlt := stepsLeft_lt hname.ne_dot hname.ne_dotdot hstep hd₀
    refine (ih _ (hlt.trans_le hm) hloc (hle'.trans hle) le_rfl).mono ?_
    omega

/-- **A path without a null**: the function returns. -/
theorem returnsFrom_removeAll (hb : ∀ d n, n ∈ w.fs.children d → '\\' ∉ n)
    (hp : nul ∉ q.path) : ∃ N, ReturnsFrom env w N fun fuel => removeAll fuel q := by
  cases hs : namesDirectory env w.fs (cStr q.path) with
  | false => exact ⟨1, returnsFrom_removeAll_of_not hs one_pos⟩
  | true =>
    obtain ⟨d, hd⟩ := namesDirectory_iff.mp hs
    rw [cStr_of_nul_notMem hp] at hd
    have hne : q.path ≠ [] := (stat_eq_ok.mp hd).1
    obtain ⟨k, hlead⟩ := (stat_directory_iff_leads hne).mp hd
    exact ⟨_, returnsFrom_of_locates hb ⟨hp, hne, hlead⟩ le_rfl le_rfl⟩

/-! ## Paths with a null -/

/-- The path of an entry is cut off before the name of the entry. -/
theorem cStr_subPath_of_nul (hp : nul ∈ q.path) (hn : IsName n) (hb : '\\' ∉ n) :
    nul ∈ (subPath q n).path ∧ cStr (subPath q n).path = cStr q.path := by
  rw [subPath_path hn hb]
  refine ⟨List.mem_append_left _ (nul_mem_withSeparator.mpr hp), ?_⟩
  rw [Path.withSeparator]
  split_ifs
  · rw [List.append_assoc, cStr_append_of_mem hp]
  · rw [cStr_append_of_mem hp]

/-- The loop ends at the first entry, whose path names the directory again. -/
theorem run_removeEntries_of_nul {es : List Name} {fuel : ℕ}
    (hra : ∀ n ∈ es, n ≠ dot → n ≠ dotdot →
      ∃ w', (removeEntry (removeAll fuel) (subPath q n)).run (handler env) w = (.outOfFuel, w'))
    (hes : ∃ n ∈ es, n ≠ dot ∧ n ≠ dotdot) (rounds id : ℕ) :
    ∃ w', (removeEntries (removeAll fuel) q rounds ⟨id, es⟩).run (handler env) w =
      (.outOfFuel, w') := by
  induction es generalizing rounds with
  | nil => simp at hes
  | cons n es ih =>
    obtain ⟨hn, hra⟩ := List.forall_mem_cons.mp hra
    cases rounds with
    | zero => exact ⟨w, rfl⟩
    | succ rounds =>
      by_cases hdots : n = dot ∨ n = dotdot
      · have hes' : ∃ m ∈ es, m ≠ dot ∧ m ≠ dotdot := by
          obtain ⟨m, hm, hd, hdd⟩ := hes
          refine ⟨m, (List.mem_cons.mp hm).resolve_left ?_, hd, hdd⟩
          rintro rfl
          exact hdots.elim hd hdd
        rw [run_removeEntries_dots env w _ q rounds id hdots]
        exact ih hra hes' rounds
      · rw [not_or] at hdots
        obtain ⟨w', hout⟩ := hn hdots.1 hdots.2
        rw [run_removeEntries_cons env w _ q rounds id (not_or.mpr hdots) es hout,
          if_neg (by simp)]
        exact ⟨w', rfl⟩

/-- **A path with a null** that names a directory with an entry: the function calls itself for
this directory again and again. The induction is on the fuel. -/
theorem run_removeAll_of_nul (hb : ∀ n ∈ w.fs.children d, '\\' ∉ n) (hp : nul ∈ q.path)
    (h : stat env w.fs (cStr q.path) = .ok (d, .directory)) (hne : w.fs.children d ≠ [])
    (fuel : ℕ) : ∃ w', (removeAll fuel q).run (handler env) w = (.outOfFuel, w') := by
  induction fuel generalizing w q with
  | zero => exact ⟨w, rfl⟩
  | succ fuel ih =>
    rw [run_removeAll_of_directory env w fuel h]
    apply run_removeEntries_of_nul
    · intro n hn hd hdd
      have hn := mem_children_of_mem_listing hn hd hdd
      -- up to the null, the path of the entry is the path of the directory
      obtain ⟨hnul, hc⟩ := cStr_subPath_of_nul hp (isName_of_mem_children hn) (hb n hn)
      have hstat : stat env w.fs (cStr (subPath q n).path) = .ok (d, .directory) := hc ▸ h
      have hdir : namesDirectory env w.fs (cStr (subPath q n).path) = true :=
        namesDirectory_iff.mpr ⟨d, hstat⟩
      obtain ⟨w', hout⟩ := ih (w := { w with opened := w.opened + 1 }) hb hnul hstat hne
      refine ⟨w', ?_⟩
      rw [run_removeEntry_of_directory env { w with opened := w.opened + 1 } hdir hout,
        if_neg (by simp)]
    · obtain ⟨n, hn⟩ := List.exists_mem_of_ne_nil _ hne
      have hname := isName_of_mem_children hn
      exact ⟨n, mem_listing.mpr (.inr (.inr hn)), hname.ne_dot, hname.ne_dotdot⟩

/-- On a directory without entries the function returns, whatever the path. -/
theorem returnsFrom_of_children_eq_nil (h : stat env w.fs (cStr q.path) = .ok (d, .directory))
    (hnil : w.fs.children d = []) : ReturnsFrom env w 4 fun fuel => removeAll fuel q :=
  returnsFrom_removeAll_of_directory h (by simp [hnil]) (by simp [hnil])

/-- **When `remove_all` returns**: exactly when the path has no null, or does not name a directory
with an entry. -/
theorem returns_iff (hb : ∀ d n, n ∈ w.fs.children d → '\\' ∉ n) (q : Path) :
    (∃ N, ReturnsFrom env w N fun fuel => removeAll fuel q) ↔
      (nul ∈ q.path → ∀ d, stat env w.fs (cStr q.path) = .ok (d, .directory) →
        w.fs.children d = []) := by
  constructor
  · rintro ⟨N, b, w', hrun⟩ hp d hd
    -- the run that never returns and the one that does would be the same
    by_contra hne
    obtain ⟨v, hout⟩ := run_removeAll_of_nul (hb d) hp hd hne N
    cases (Prod.mk.inj (hout.symm.trans (hrun N le_rfl))).1
  · intro h
    by_cases hp : nul ∈ q.path
    · cases hs : namesDirectory env w.fs (cStr q.path) with
      | false => exact ⟨1, returnsFrom_removeAll_of_not hs one_pos⟩
      | true =>
        obtain ⟨d, hd⟩ := namesDirectory_iff.mp hs
        exact ⟨4, returnsFrom_of_children_eq_nil hd (h hp d hd)⟩
    · exact returnsFrom_removeAll hb hp

end Returns

/-- The directory `/t` with a link that leads to `/t` again. -/
def cycleTree : FileSystem where
  nodes := ((AList.singleton [] .directory).insert [['t']] .directory).insert [['t'], ['k']]
    (.symlink ['/', 't'])
  root := by decide
  parent := by decide
  isName := by decide

/-- On the cycle the function returns, but not for a path with a null. -/
theorem returns_iff_cycleTree :
    (∃ N, ReturnsFrom (Env.ofCwd []) ⟨cycleTree, 0⟩ N fun fuel =>
        removeAll fuel (.ofString .posix ['t'])) ∧
      ¬ ∃ N, ReturnsFrom (Env.ofCwd []) ⟨cycleTree, 0⟩ N fun fuel =>
        removeAll fuel (.ofString .posix ['t', nul]) := by
  have hb : ∀ d n, n ∈ cycleTree.children d → '\\' ∉ n := by
    intro d n hn
    have hmem : d ++ [n] ∈ cycleTree.nodes.keys :=
      FileSystem.mem_keys.mpr (FileSystem.mem_children.mp hn)
    have hall : ∀ l ∈ cycleTree.nodes.keys, ∀ n ∈ l, '\\' ∉ n := by decide
    exact hall _ hmem n (by simp)
  constructor
  · exact (returns_iff (w := ⟨cycleTree, 0⟩) hb _).mpr fun h => absurd h (by decide)
  · intro h
    have hnil := (returns_iff (w := ⟨cycleTree, 0⟩) hb _).mp h (by decide) [['t']] (by decide)
    exact absurd hnil (by decide)

end RcppUtils
