import RcppUtils.Posix.SystemCall

/-!
# How far a pathname exists

The names of a pathname lead through directories up to a frontier, behind which nothing exists,
or up to an entry that neither is nor leads to a directory. When directories are added, the
names behind a frontier can only come to lead to the new directories at the expected places.

## Main definitions

* `Leads fs b cur ns d k`: the names lead from `cur` to the directory `d`
* `Frontier fs b cur done rest d k`: `done` leads to `d`, and nothing exists at `rest` from there
* `Blocked fs b cur done n d k`: `done` leads to `d`, whose entry `n` leads to no directory
* `IsPathPrefix u s`: the pathname `u` has the first names of `s`
* `NamesNonDirectory`, `IsMissingPrefix`: prefixes that name no directory, or nothing yet
* `NamesDirectories`: all prefixes name directories

## Main results

* `frontier_or_blocked`: every pathname has a frontier or is blocked
* `Frontier.leads_or_free`: one name more, while directories are added
* `Frontier.not_namesNonDirectory`, `Blocked.exists_namesNonDirectory`: what the prefixes name
* `Frontier.exists_of_isMissingPrefix`, `Frontier.isMissingPrefix_append`: the locations of
  the missing prefixes
-/

namespace Posix

/-- The names lead from `cur` to the directory `d`, with `k` of `b` links left to follow. -/
structure Leads (fs : FileSystem) (b : ℕ) (cur : Loc) (ns : List Name) (d : Loc) (k : ℕ) :
    Prop where
  walk : Posix.walk fs b cur ns = .ok (d, k)
  kind : fs.kind d = some .directory

/-- The names `done` lead to the directory `d`, where the names `rest` are still missing. -/
structure Frontier (fs : FileSystem) (b : ℕ) (cur : Loc) (done rest : List Name) (d : Loc)
    (k : ℕ) : Prop where
  leads : Leads fs b cur done d k
  free : ∀ n ∈ rest.head?, fs.kind (d ++ [n]) = none

/-- The names `done` lead to the directory `d`, and its entry `n` leads to no directory. -/
structure Blocked (fs : FileSystem) (b : ℕ) (cur : Loc) (done : List Name) (n : Name) (d : Loc)
    (k : ℕ) : Prop where
  leads : Leads fs b cur done d k
  kind_ne_none : fs.kind (d ++ [n]) ≠ none
  not_leads : ∀ d' k', ¬ Leads fs b cur (done ++ [n]) d' k'

section Leads

variable {fs fs' : FileSystem} {b k : ℕ} {cur d : Loc} {ns ms done rest : List Name} {n : Name}

theorem leads_nil (h : fs.kind cur = some .directory) : Leads fs b cur [] cur b :=
  ⟨walk_nil b cur, h⟩

theorem Leads.of_le (hle : fs ≤ fs') (h : Leads fs b cur ns d k) : Leads fs' b cur ns d k :=
  ⟨walk_of_le hle h.walk, hle _ _ h.kind⟩

theorem Leads.unique {d' : Loc} {k' : ℕ} (h : Leads fs b cur ns d k)
    (h' : Posix.walk fs b cur ns = .ok (d', k')) : d' = d ∧ k' = k := by
  have := Except.ok.inj (h'.symm.trans h.walk)
  exact Prod.mk.inj this

theorem Leads.walk_concat (h : Leads fs b cur ns d k) (n : Name) :
    Posix.walk fs b cur (ns ++ [n]) = Posix.walk fs k d [n] :=
  walk_append_of_ok h.walk [n]

/-- A walk goes on from directories only. -/
theorem Leads.of_append (h : Leads fs b cur (ns ++ ms) d k) :
    ∃ d' k', Leads fs b cur ns d' k' := by
  obtain ⟨⟨d', k'⟩, hns, hms⟩ := exists_walk_of_append h.walk
  refine ⟨d', k', hns, ?_⟩
  cases ms with
  | nil =>
    rw [List.append_nil] at h
    exact (h.unique hns).1 ▸ h.kind
  | cons m ms =>
    obtain ⟨_, _, _, hop, -⟩ := Hop.of_walk hms
    cases hop <;> assumption

theorem Leads.of_prefix (h : Leads fs b cur ms d k) (hp : ns <+: ms) :
    ∃ d' k', Leads fs b cur ns d' k' := by
  obtain ⟨rs, rfl⟩ := hp
  exact h.of_append

/-- A walk that takes the name of an entry finds the entry. -/
theorem kind_ne_none_of_walk {r : Loc × ℕ} (h : Posix.walk fs k d (n :: ns) = .ok r)
    (hd : n ≠ dot) (hdd : n ≠ dotdot) : fs.kind (d ++ [n]) ≠ none := by
  obtain ⟨_, _, _, hop, -⟩ := Hop.of_walk h
  cases hop <;> simp_all

/-- An entry that is a directory is one step on. -/
theorem Leads.concat (h : Leads fs b cur ns d k) (hd : n ≠ dot) (hdd : n ≠ dotdot)
    (hn : fs.kind (d ++ [n]) = some .directory) : Leads fs b cur (ns ++ [n]) (d ++ [n]) k := by
  refine ⟨?_, hn⟩
  rw [h.walk_concat, walk_of_hop (.node h.kind hd hdd hn (by simp))]
  simp

/-- The names `.` and `..` lead from a directory to a directory. -/
theorem Leads.concat_dots (h : Leads fs b cur ns d k) (hn : n = dot ∨ n = dotdot) :
    Leads fs b cur (ns ++ [n]) (if n = dot then d else d.dropLast) k := by
  rcases hn with rfl | rfl
  · refine ⟨?_, h.kind⟩
    rw [h.walk_concat, walk_of_hop (.dot h.kind)]
    simp
  · rw [if_neg dotdot_ne_dot]
    refine ⟨?_, FileSystem.kind_dropLast (by simp [h.kind])⟩
    rw [h.walk_concat, walk_of_hop (.dotdot h.kind)]
    simp

/-! ## Frontiers -/

/-- A prefix of a concatenation ends in the left part or behind it. -/
theorem prefix_append_cases {α : Type} {xs ys zs : List α} {a : α} (h : xs ++ [a] <+: ys ++ zs) :
    xs ++ [a] <+: ys ∨ ∃ r, xs = ys ++ r ∧ r ++ [a] <+: zs := by
  rcases List.prefix_or_prefix_of_prefix h (List.prefix_append ys zs) with hpre | hpre
  · exact .inl hpre
  rcases List.prefix_concat_iff.mp hpre with rfl | ⟨r, rfl⟩
  · exact .inl List.prefix_rfl
  · rw [List.append_assoc, List.prefix_append_right_inj] at h
    exact .inr ⟨r, rfl, h⟩

/-- **Every pathname has a frontier or is blocked.** -/
theorem frontier_or_blocked_append (h : Leads fs b cur done d k) (rest : List Name) :
    (∃ done' rest' d' k', done ++ rest = done' ++ rest' ∧ Frontier fs b cur done' rest' d' k') ∨
      ∃ done' n rest' d' k', done ++ rest = done' ++ n :: rest' ∧
        Blocked fs b cur done' n d' k' := by
  induction rest generalizing done d k with
  | nil => exact .inl ⟨done, [], d, k, rfl, h, by simp⟩
  | cons n rest ih =>
    -- go on while the next name leads to a directory
    by_cases hnext : ∃ d' k', Leads fs b cur (done ++ [n]) d' k'
    · obtain ⟨d', k', hnext⟩ := hnext
      simpa using ih hnext
    by_cases hfree : fs.kind (d ++ [n]) = none
    · exact .inl ⟨done, n :: rest, d, k, rfl, h, by simpa using hfree⟩
    · exact .inr ⟨done, n, rest, d, k, rfl, h, hfree, fun d' k' h' => hnext ⟨d', k', h'⟩⟩

theorem frontier_or_blocked (hcur : fs.kind cur = some .directory) (b : ℕ) (ns : List Name) :
    (∃ done rest d k, ns = done ++ rest ∧ Frontier fs b cur done rest d k) ∨
      ∃ done n rest d k, ns = done ++ n :: rest ∧ Blocked fs b cur done n d k :=
  frontier_or_blocked_append (leads_nil hcur) ns

namespace Frontier

/-- Nothing exists behind the frontier. -/
theorem kind_eq_none (h : Frontier fs b cur done rest d k) {r : List Name} (hr : r ≠ [])
    (hp : r <+: rest) : fs.kind (d ++ r) = none := by
  obtain ⟨n, r, rfl⟩ := List.exists_cons_of_ne_nil hr
  obtain ⟨q, rfl⟩ := hp
  have hfree : fs.kind (d ++ [n]) = none := h.free n (by simp)
  by_contra hne
  -- what lies above a node is a directory, but the first name is free
  have hpre : d ++ [n] <+: d ++ n :: r := ⟨r, by simp⟩
  by_cases he : d ++ [n] = d ++ n :: r
  · exact hne (he ▸ hfree)
  · simp [FileSystem.kind_of_prefix hne hpre he] at hfree

/-- **Where the names behind the frontier lead** once directories were added. -/
theorem leads_of_grown (h : Frontier fs b cur done rest d k) (hg : fs.Grown fs')
    (hnames : ∀ n ∈ rest, n ≠ dot ∧ n ≠ dotdot) {r : List Name} (hp : r <+: rest)
    {q : Loc × ℕ} (hw : walk fs' b cur (done ++ r) = .ok q) :
    q = (d ++ r, k) ∧ Leads fs' b cur (done ++ r) (d ++ r) k := by
  -- the induction is on the names behind the frontier, the last one first
  induction r using List.reverseRecOn generalizing q with
  | nil =>
    have hl := h.leads.of_le hg.le
    rw [List.append_nil] at hw ⊢
    rw [List.append_nil]
    exact ⟨Prod.ext (hl.unique hw).1 (hl.unique hw).2, hl⟩
  | append_singleton r n ih =>
    have hr : r <+: rest := (List.prefix_append r [n]).trans hp
    rw [← List.append_assoc] at hw
    obtain ⟨q', hq', hstep⟩ := exists_walk_of_append hw
    obtain ⟨rfl, hl⟩ := ih hr hq'
    obtain ⟨hd, hdd⟩ := hnames n (hp.subset (by simp))
    -- the entry is new, so it is a directory
    have hnew : fs.kind (d ++ r ++ [n]) = none := by
      rw [List.append_assoc]
      exact h.kind_eq_none (by simp) hp
    have hdir := hg.directory_of_none _ hnew (kind_ne_none_of_walk hstep hd hdd)
    have hnext := hl.concat hd hdd hdir
    rw [List.append_assoc, List.append_assoc] at hnext
    rw [List.append_assoc] at hw
    exact ⟨Prod.ext (hnext.unique hw).1 (hnext.unique hw).2, hnext⟩

/-- Once the whole pathname leads to a directory, so do all names behind the frontier. -/
theorem leads_prefix (h : Frontier fs b cur done rest d k) (hg : fs.Grown fs')
    (hnames : ∀ n ∈ rest, n ≠ dot ∧ n ≠ dotdot) {r : List Name} (hp : r <+: rest) {e : Loc}
    {j : ℕ} (hlead : Leads fs' b cur (done ++ rest) e j) :
    Leads fs' b cur (done ++ r) (d ++ r) k := by
  obtain ⟨d', k', hd⟩ := hlead.of_prefix ((List.prefix_append_right_inj done).mpr hp)
  exact (h.leads_of_grown hg hnames hp hd.walk).2

/-- **One name more**, while directories are added: the next name leads to a directory, or it is
the next missing one. -/
theorem leads_or_free (h : Frontier fs b cur done rest d k) (hg : fs.Grown fs')
    (hnames : ∀ n ∈ rest, n ≠ dot ∧ n ≠ dotdot) (hp : ns ++ [n] <+: done ++ rest) {l : Loc}
    {j : ℕ} (hl : Leads fs' b cur ns l j) :
    (∃ l' j', Leads fs' b cur (ns ++ [n]) l' j') ∨
      fs'.kind (l ++ [n]) = none ∧
        ∃ r, ns = done ++ r ∧ l = d ++ r ∧ r ++ [n] <+: rest := by
  rcases prefix_append_cases hp with hpre | ⟨r, rfl, hr'⟩
  · obtain ⟨d', k', hd⟩ := h.leads.of_prefix hpre
    exact .inl ⟨d', k', hd.of_le hg.le⟩
  -- the name lies behind the frontier
  have hr : r <+: rest := (List.prefix_append r [n]).trans hr'
  obtain ⟨hq, -⟩ := h.leads_of_grown hg hnames hr hl.walk
  obtain ⟨rfl, rfl⟩ := Prod.mk.inj hq
  by_cases hfree : fs'.kind (d ++ r ++ [n]) = none
  · exact .inr ⟨hfree, r, rfl, rfl, hr'⟩
  · obtain ⟨hd, hdd⟩ := hnames n (hr'.subset (by simp))
    have hnew : fs.kind (d ++ r ++ [n]) = none := by
      rw [List.append_assoc]
      exact h.kind_eq_none (by simp) hr'
    exact .inl ⟨_, _, hl.concat hd hdd (hg.directory_of_none _ hnew hfree)⟩

end Frontier

end Leads

/-! ## Prefixes of pathnames -/

/-- The pathname `u` has the first names of `s`, and starts where `s` does. -/
structure IsPathPrefix (u s : List Char) : Prop where
  ne_nil : u ≠ []
  absolute : (Pathname.parse u).absolute = (Pathname.parse s).absolute
  names : Posix.names u <+: Posix.names s

/-- The pathname `u` names an entry that neither is nor leads to a directory. -/
def NamesNonDirectory (env : Env) (fs : FileSystem) (u : List Char) : Prop :=
  (∃ l, lstat env fs u = .ok l) ∧ ∀ l, stat env fs u ≠ .ok (l, .directory)

/-- Every prefix of `s`, and `s` itself, names a directory. -/
def NamesDirectories (env : Env) (fs : FileSystem) (s : List Char) : Prop :=
  ∀ u, IsPathPrefix u s → ∃ l, stat env fs u = .ok (l, .directory)

/-- In `fs'` the location `l` is that of a prefix of `s` that is missing in `fs`. -/
def IsMissingPrefix (env : Env) (fs fs' : FileSystem) (s : List Char) (l : Loc) : Prop :=
  ∃ u, IsPathPrefix u s ∧ (∀ l', lstat env fs u ≠ .ok l') ∧ lstat env fs' u = .ok l

/-- The pathname with given names. -/
def render (absolute : Bool) (ns : List Name) : List Char :=
  (if absolute then ['/'] else []) ++ ['/'].intercalate ns

theorem names_intercalate {ns : List Name} (h : ∀ n ∈ ns, n ≠ [] ∧ '/' ∉ n) :
    names (['/'].intercalate ns) = ns := by
  by_cases hns : ns = []
  · simp [hns]
  · rw [names, List.splitOn_intercalate '/' (fun n hn => (h n hn).2) hns]
    exact List.filter_eq_self.mpr fun n hn => by simpa using (h n hn).1

theorem names_render (absolute : Bool) {ns : List Name} (h : ∀ n ∈ ns, n ≠ [] ∧ '/' ∉ n) :
    names (render absolute ns) = ns := by
  cases absolute
  · simpa [render] using names_intercalate h
  · simpa [render, names_slash_cons] using names_intercalate h

/-- Every non-empty list of first names is that of a prefix. -/
theorem isPathPrefix_render {s : List Char} {ns : List Name} (hns : ns ≠ [])
    (hp : ns <+: names s) : IsPathPrefix (render (Pathname.parse s).absolute ns) s := by
  have hnames : ∀ n ∈ ns, n ≠ [] ∧ '/' ∉ n := fun n hn =>
    ⟨ne_nil_of_mem_names (hp.subset hn), slash_notMem_of_mem_names (hp.subset hn)⟩
  refine ⟨?_, ?_, by rwa [names_render _ hnames]⟩
  · intro h
    have := names_render (Pathname.parse s).absolute hnames
    rw [h] at this
    exact hns (by simpa using this.symm)
  · cases (Pathname.parse s).absolute with
    | true => simp [render, Pathname.parse]
    | false =>
      obtain ⟨n, ns, rfl⟩ := List.exists_cons_of_ne_nil hns
      obtain ⟨hn, hslash⟩ := hnames n (by simp)
      obtain ⟨c, n, rfl⟩ := List.exists_cons_of_ne_nil hn
      have hc : c ≠ '/' := fun h => hslash (by simp [h])
      cases ns <;> simp [render, Pathname.parse, List.intercalate_cons_cons, hc]

section Prefix

variable {env : Env} {fs fs' : FileSystem} {s u : List Char} {b k : ℕ} {cur d : Loc}
  {ns done rest : List Name} {n : Name}

theorem start_eq_of_absolute_eq (h : (Pathname.parse u).absolute = (Pathname.parse s).absolute) :
    env.start u = env.start s := by
  rw [Env.start, Env.start, h]

theorem kind_start (hcwd : fs.kind env.cwd = some .directory) (s : List Char) :
    fs.kind (env.start s) = some .directory := by
  rw [Env.start]
  split_ifs
  · exact FileSystem.kind_root
  · exact hcwd

/-- The names of a pathname lead to a directory exactly when the pathname names it. -/
theorem stat_directory_iff_leads (hu : u ≠ []) :
    stat env fs u = .ok (d, .directory) ↔
      ∃ k, Leads fs env.symloopMax (env.start u) (names u) d k := by
  rw [stat_directory_iff]
  constructor
  · rintro ⟨-, ⟨k, hw⟩, hd⟩
    exact ⟨k, hw, hd⟩
  · rintro ⟨k, hw, hd⟩
    exact ⟨hu, ⟨k, hw⟩, hd⟩

/-- `lstat` finds the last name in the directory that the others lead to. -/
theorem lstat_of_leads (hu : u ≠ []) (hn : names u = ns ++ [n]) (hd : n ≠ dot) (hdd : n ≠ dotdot)
    (h : Leads fs env.symloopMax (env.start u) ns d k) :
    lstat env fs u = if fs.kind (d ++ [n]) = none then .error .enoent else .ok (d ++ [n]) := by
  rw [lstat, atLast_of_walk hu hn h.walk h.kind, if_neg hd, if_neg hdd]

theorem lstat_eq_ok {l : Loc} (hd : ∀ n ∈ (names u).getLast?, n ≠ dot ∧ n ≠ dotdot)
    (h : lstat env fs u = .ok l) :
    u ≠ [] ∧ (names u = [] ∧ l = [] ∨ ∃ ns n d k, names u = ns ++ [n] ∧
      Leads fs env.symloopMax (env.start u) ns d k ∧ fs.kind (d ++ [n]) ≠ none ∧
      l = d ++ [n]) := by
  obtain ⟨hu, ⟨hn, hroot⟩ | ⟨ns, n, d, k, hn, hw, hdir, hf⟩⟩ := atLast_eq_ok h
  · exact ⟨hu, .inl ⟨hn, (Except.ok.inj hroot).symm⟩⟩
  · obtain ⟨hnd, hndd⟩ := hd n (by simp [hn])
    rw [if_neg hnd, if_neg hndd] at hf
    split_ifs at hf with hk
    exact ⟨hu, .inr ⟨ns, n, d, k, hn, ⟨hw, hdir⟩, hk, (Except.ok.inj hf).symm⟩⟩

/-- `lstat` finds the same entry in every file system with more nodes. -/
theorem lstat_of_le (hle : fs ≤ fs') {l : Loc} (h : lstat env fs u = .ok l) :
    lstat env fs' u = .ok l := by
  obtain ⟨hu, ⟨hn, hroot⟩ | ⟨ns, n, d, k, hn, hw, hdir, hf⟩⟩ := atLast_eq_ok h
  · rw [lstat, atLast_of_names_eq_nil hu hn, hroot]
  · rw [lstat, atLast_of_walk hu hn (walk_of_le hle hw) (hle _ _ hdir)]
    -- the last name is `.`, `..`, or that of an entry
    by_cases hd : n = dot
    · rwa [if_pos hd] at hf ⊢
    by_cases hdd : n = dotdot
    · rwa [if_neg hd, if_pos hdd] at hf ⊢
    rw [if_neg hd, if_neg hdd] at hf ⊢
    split_ifs at hf with hnone
    rw [if_neg (FileSystem.kind_ne_none_of_le hle hnone), hf]

/-- Without dots in a pathname, none of its prefixes ends in one. -/
theorem IsPathPrefix.getLast?_ne_dots (hu : IsPathPrefix u s)
    (hdots : ∀ n ∈ Posix.names s, n ≠ dot ∧ n ≠ dotdot) :
    ∀ n ∈ (Posix.names u).getLast?, n ≠ dot ∧ n ≠ dotdot :=
  fun n hn => hdots n (hu.names.subset (List.mem_of_getLast? hn))

/-- The names of a pathname lead through directories. -/
theorem namesDirectories_of_leads {e : Loc} {j : ℕ}
    (h : Leads fs env.symloopMax (env.start s) (names s) e j) : NamesDirectories env fs s := by
  intro u hu
  obtain ⟨l, k, hl⟩ := h.of_prefix hu.names
  rw [← start_eq_of_absolute_eq hu.absolute] at hl
  exact ⟨l, (stat_directory_iff_leads hu.ne_nil).mpr ⟨k, hl⟩⟩

/-- The prefixes of a pathname with a frontier name directories, or nothing. -/
theorem Frontier.not_namesNonDirectory
    (h : Frontier fs env.symloopMax (env.start s) done rest d k) (hs : names s = done ++ rest)
    (hdots : ∀ n ∈ names s, n ≠ dot ∧ n ≠ dotdot) (hu : IsPathPrefix u s) :
    ¬ NamesNonDirectory env fs u := by
  rintro ⟨⟨l, hl⟩, hne⟩
  have hstart : env.start u = env.start s := start_eq_of_absolute_eq hu.absolute
  have hudots := hu.getLast?_ne_dots hdots
  -- an entry that exists lies in front of the frontier
  have leads : ∃ l' j', Leads fs env.symloopMax (env.start u) (names u) l' j' := by
    obtain ⟨-, ⟨hn, -⟩ | ⟨ns, n, d', k', hn, hlead, hkind, -⟩⟩ := lstat_eq_ok hudots hl
    · obtain ⟨d', k', hd⟩ := h.leads.of_prefix (List.nil_prefix)
      exact ⟨d', k', by rwa [hn, hstart]⟩
    · have hp : ns ++ [n] <+: done ++ rest := by rw [← hn, ← hs]; exact hu.names
      have hrest : ∀ n ∈ rest, n ≠ dot ∧ n ≠ dotdot := fun n hn =>
        hdots n (by simp [hs, hn])
      rw [hstart] at hlead
      rcases h.leads_or_free (refl fs) hrest hp hlead with hnext | ⟨hfree, -⟩
      · rwa [hn, hstart]
      · exact absurd hfree hkind
  obtain ⟨l', j', hlead⟩ := leads
  exact hne l' ((stat_directory_iff_leads hu.ne_nil).mpr ⟨j', hlead⟩)

/-- A pathname that is blocked has a prefix that names no directory. -/
theorem Blocked.exists_namesNonDirectory
    (h : Blocked fs env.symloopMax (env.start s) done n d k) (hs : names s = done ++ n :: rest) :
    ∃ u, IsPathPrefix u s ∧ NamesNonDirectory env fs u := by
  have hp : done ++ [n] <+: names s := ⟨rest, by simp [hs]⟩
  have hu := isPathPrefix_render (by simp) hp
  have hnames : names (render (Pathname.parse s).absolute (done ++ [n])) = done ++ [n] :=
    names_render _ fun m hm =>
      ⟨ne_nil_of_mem_names (hp.subset hm), slash_notMem_of_mem_names (hp.subset hm)⟩
  have hstart : env.start _ = env.start s := start_eq_of_absolute_eq hu.absolute
  have hname : IsName n := FileSystem.isName_of_kind_concat h.kind_ne_none
  refine ⟨_, hu, ⟨d ++ [n], ?_⟩, ?_⟩
  · rw [lstat_of_leads hu.ne_nil hnames hname.ne_dot hname.ne_dotdot (hstart ▸ h.leads),
      if_neg h.kind_ne_none]
  · intro l hl
    obtain ⟨j, hlead⟩ := (stat_directory_iff_leads hu.ne_nil).mp hl
    rw [hnames, hstart] at hlead
    exact h.not_leads l j hlead

/-- A pathname with no prefix that names a non-directory has a frontier. -/
theorem exists_frontier (hstart : fs.kind (env.start s) = some .directory)
    (hclear : ∀ u, IsPathPrefix u s → ¬ NamesNonDirectory env fs u) :
    ∃ done rest d k, names s = done ++ rest ∧
      Frontier fs env.symloopMax (env.start s) done rest d k := by
  rcases frontier_or_blocked hstart env.symloopMax (names s) with
    h | ⟨done, n, rest, d, k, hn, hblocked⟩
  · exact h
  · obtain ⟨u, hu, hne⟩ := hblocked.exists_namesNonDirectory hn
    exact absurd hne (hclear u hu)

/-- **A missing prefix ends behind the frontier.** -/
theorem Frontier.exists_of_isMissingPrefix
    (h : Frontier fs env.symloopMax (env.start s) done rest d k) (hs : names s = done ++ rest)
    (hdots : ∀ n ∈ names s, n ≠ dot ∧ n ≠ dotdot) (hg : fs.Grown fs') {l : Loc}
    (hl : IsMissingPrefix env fs fs' s l) : ∃ r, r ≠ [] ∧ r <+: rest ∧ l = d ++ r := by
  obtain ⟨u, hu, hmiss, hl⟩ := hl
  have hrest : ∀ n ∈ rest, n ≠ dot ∧ n ≠ dotdot := fun n hn => hdots n (by simp [hs, hn])
  have hstart : env.start u = env.start s := start_eq_of_absolute_eq hu.absolute
  have hudots := hu.getLast?_ne_dots hdots
  obtain ⟨hne, ⟨hn, -⟩ | ⟨ns, n, d', k', hn, hlead, -, rfl⟩⟩ := lstat_eq_ok hudots hl
  · -- the root is not missing
    refine absurd ?_ (hmiss [])
    rw [lstat, atLast_of_names_eq_nil hne hn]
  have hp : ns ++ [n] <+: done ++ rest := by
    rw [← hn, ← hs]
    exact hu.names
  -- the last name lies in front of the frontier or behind it
  rcases prefix_append_cases hp with hpre | ⟨r, rfl, hpre⟩
  · -- what lies in front of the frontier is not missing
    obtain ⟨d₂, k₂, h₂⟩ := h.leads.of_prefix hpre
    obtain ⟨d₁, k₁, h₁⟩ := h₂.of_append
    obtain ⟨hd, hdd⟩ := hudots n (by simp [hn])
    have hkind : fs.kind (d₁ ++ [n]) ≠ none :=
      kind_ne_none_of_walk (h₁.walk_concat n ▸ h₂.walk) hd hdd
    refine absurd ?_ (hmiss (d₁ ++ [n]))
    rw [lstat_of_leads hne hn hd hdd (hstart ▸ h₁), if_neg hkind]
  · have hr : r <+: rest := (List.prefix_append r [n]).trans hpre
    rw [hstart] at hlead
    obtain ⟨hq, -⟩ := h.leads_of_grown hg hrest hr hlead.walk
    exact ⟨r ++ [n], by simp, hpre, by rw [(Prod.mk.inj hq).1, List.append_assoc]⟩

/-- A pathname that ends behind the frontier names nothing. -/
theorem Frontier.lstat_ne_ok (h : Frontier fs env.symloopMax (env.start u) done rest d k)
    {r : List Name} (hn : names u = done ++ r) (hrest : ∀ n ∈ rest, n ≠ dot ∧ n ≠ dotdot)
    (hr0 : r ≠ []) (hp : r <+: rest) (l : Loc) : lstat env fs u ≠ .ok l := by
  intro hl
  obtain ⟨r, n, rfl⟩ := (List.eq_nil_or_concat' r).resolve_left hr0
  have hr : r <+: rest := (List.prefix_append r [n]).trans hp
  rw [← List.append_assoc] at hn
  obtain ⟨hd, hdd⟩ := hrest n (hp.subset (by simp))
  obtain ⟨-, ⟨hnil, -⟩ | ⟨ns, n', d', k', hn', hlead, hkind, -⟩⟩ :=
    lstat_eq_ok (by simp [hn, hd, hdd]) hl
  · simp [hn] at hnil
  · obtain ⟨rfl, rfl⟩ : ns = done ++ r ∧ n' = n := by
      simpa using List.append_inj' (hn'.symm.trans hn) rfl
    obtain ⟨hq, -⟩ := h.leads_of_grown (refl fs) hrest hr hlead.walk
    apply hkind
    rw [(Prod.mk.inj hq).1, List.append_assoc]
    exact h.kind_eq_none (by simp) hp

/-- **The names behind the frontier are those of missing prefixes**, once the whole pathname leads
to a directory. -/
theorem Frontier.isMissingPrefix_append
    (h : Frontier fs env.symloopMax (env.start s) done rest d k) (hs : names s = done ++ rest)
    (hrest : ∀ n ∈ rest, n ≠ dot ∧ n ≠ dotdot) (hg : fs.Grown fs') {e : Loc} {j : ℕ}
    (hlead : Leads fs' env.symloopMax (env.start s) (names s) e j) {r : List Name} (hr0 : r ≠ [])
    (hp : r <+: rest) : IsMissingPrefix env fs fs' s (d ++ r) := by
  obtain ⟨r, n, rfl⟩ := (List.eq_nil_or_concat' r).resolve_left hr0
  have hr : r <+: rest := (List.prefix_append r [n]).trans hp
  have hpre : done ++ (r ++ [n]) <+: names s := by
    rw [hs, List.prefix_append_right_inj]
    exact hp
  -- the prefix with the names up to the last of `r`
  have hu := isPathPrefix_render (by simp) hpre
  have hn : names (render (Pathname.parse s).absolute (done ++ (r ++ [n]))) =
      done ++ r ++ [n] := by
    rw [List.append_assoc]
    exact names_render _ fun m hm =>
      ⟨ne_nil_of_mem_names (hpre.subset hm), slash_notMem_of_mem_names (hpre.subset hm)⟩
  have hstart : env.start _ = env.start s := start_eq_of_absolute_eq hu.absolute
  obtain ⟨hd, hdd⟩ := hrest n (hp.subset (by simp))
  refine ⟨_, hu, ?_, ?_⟩
  · rw [List.append_assoc] at hn
    exact (hstart.symm ▸ h).lstat_ne_ok hn hrest (by simp) hp
  · -- in `fs'` the name is there, because the whole pathname leads on
    rw [hs] at hlead
    have hl₁ := h.leads_prefix hg hrest hr hlead
    have hl₂ := h.leads_prefix hg hrest hp hlead
    rw [lstat_of_leads hu.ne_nil hn hd hdd (hstart ▸ hl₁), if_neg, List.append_assoc]
    rw [List.append_assoc, hl₂.kind]
    exact Option.some_ne_none _

/-- A missing prefix is a new entry, once the whole pathname leads to a directory. -/
theorem Frontier.new_of_isMissingPrefix
    (h : Frontier fs env.symloopMax (env.start s) done rest d k) (hs : names s = done ++ rest)
    (hdots : ∀ n ∈ names s, n ≠ dot ∧ n ≠ dotdot) (hg : fs.Grown fs') {e : Loc} {j : ℕ}
    (hlead : Leads fs' env.symloopMax (env.start s) (names s) e j) {l : Loc}
    (hl : IsMissingPrefix env fs fs' s l) : fs.kind l = none ∧ fs'.kind l ≠ none := by
  have hrest : ∀ n ∈ rest, n ≠ dot ∧ n ≠ dotdot := fun n hn => hdots n (by simp [hs, hn])
  obtain ⟨r, hr, hp, rfl⟩ := h.exists_of_isMissingPrefix hs hdots hg hl
  refine ⟨h.kind_eq_none hr hp, ?_⟩
  rw [(h.leads_prefix hg hrest hp (hs ▸ hlead)).kind]
  exact Option.some_ne_none _

end Prefix

end Posix
