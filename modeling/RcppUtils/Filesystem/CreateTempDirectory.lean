import RcppUtils.Filesystem.CreateDirectoriesAlone
import RcppUtils.Program.Exception

/-!
# `create_temp_directory`

The function joins the parent with the base name and six `X`, creates the parent, and has `mkdtemp`
make the directory. The base name is not checked: an absolute one replaces the parent, and its
separators are separators of the template. `mkdtemp` belongs to the C library, and is a parameter:
any function that replaces the last six `X` of its argument and makes that directory, or fails.

## Main definitions

* `Mkdtemp env`: the functions that do what is documented of `mkdtemp`
* `createTempDirectory`: the function on the POSIX build
* `MakesChild`, `StaysInParent`: the new directory is an entry of the parent with the right name
* `Mkdtemp.withSuffix`: a `mkdtemp` that always takes the same six characters

## Main results

* `exists_mkdir_of_returns`: the directory that a call makes
* `staysInParent_iff`: when the new directory lies in the parent under its name
-/

namespace RcppUtils

open Posix Program

/-- The six `X` at the end of a template. -/
def sixX : StdString := "XXXXXX".toList

theorem slash_notMem_sixX : '/' ∉ sixX := by
  decide

theorem backslash_notMem_sixX : '\\' ∉ sixX := by
  decide

theorem nul_notMem_sixX : nul ∉ sixX := by
  decide

/-- A function `mkdtemp`: it replaces the last six `X` of the template by characters other than a
slash, and makes that directory, or fails. It returns the changed template, a C string. -/
structure Mkdtemp (env : Env) where
  mkdtemp : StdString → FileSystem → Option (StdString × FileSystem)
  of_some {template fs dirName fs'} : mkdtemp template fs = some (dirName, fs') →
    ∃ stem suffix, template = stem ++ sixX ∧ dirName = stem ++ suffix ∧
      suffix.length = sixX.length ∧ '/' ∉ suffix ∧ nul ∉ suffix ∧ mkdir env fs dirName = .ok fs'

section Function

variable {env : Env} (lib : Mkdtemp env)

/-- `full_template_str`. -/
def fullTemplateStr (baseName : StdString) (parentPath : Path) : StdString :=
  (parentPath.append .posix (.ofString .posix (baseName ++ sixX))).path

/-- `create_temp_directory(base_name, parent_path)` on the POSIX build. -/
def createTempDirectory (baseName : StdString) (parentPath : Path) (w : World) :
    Except StdException Path × World :=
  match (createDirectories parentPath).run (handler env) w with
  | (false, w) => (.error (.systemError "could not create the parent directory"), w)
  | (true, w) =>
    match lib.mkdtemp (cStr (fullTemplateStr baseName parentPath)) w.fs with
    | none => (.error (.systemError "could not format or create the temp directory"), w)
    | some (dirName, fs) => (.ok (.ofString .posix dirName), { w with fs := fs })

end Function

/-! ## The directory that is made -/

/-- From `fs` to `fs'` one entry is new: a directory in the directory that the string `s` names,
called `baseName` and six characters more. -/
def MakesChild (env : Env) (baseName s : StdString) (fs fs' : FileSystem) : Prop :=
  ∃ d suffix, stat env fs' s = .ok (d, .directory) ∧ suffix.length = sixX.length ∧
    fs'.kind (d ++ [baseName ++ suffix]) = some .directory ∧
    ∀ l, fs.kind l = none ∧ fs'.kind l ≠ none ↔ l = d ++ [baseName ++ suffix]

/-- When the call returns, the directory that it has made after the parent lies in the parent, and
its name is the base name and six characters more. -/
def StaysInParent {env : Env} (lib : Mkdtemp env) (baseName s : StdString) (w : World) : Prop :=
  ∀ p, (createTempDirectory lib baseName (.ofString .posix s) w).1 = .ok p →
    MakesChild env baseName (Path.ofString .posix s).path (created env s w).2.fs
      (createTempDirectory lib baseName (.ofString .posix s) w).2.fs

/-- A base name without separators and nulls. -/
structure IsPlain (baseName : StdString) : Prop where
  slash_notMem : '/' ∉ baseName
  backslash_notMem : '\\' ∉ baseName
  nul_notMem : nul ∉ baseName

section Returns

variable {env : Env} {lib : Mkdtemp env} {baseName s : StdString} {w : World}

theorem createTempDirectory_eq (lib : Mkdtemp env) (baseName s : StdString) (w : World) :
    createTempDirectory lib baseName (.ofString .posix s) w =
      match created env s w with
      | (false, w) => (.error (.systemError "could not create the parent directory"), w)
      | (true, w) =>
        match lib.mkdtemp (cStr (fullTemplateStr baseName (.ofString .posix s))) w.fs with
        | none => (.error (.systemError "could not format or create the temp directory"), w)
        | some (dirName, fs) => (.ok (.ofString .posix dirName), { w with fs := fs }) :=
  rfl

/-- **The directory that a call makes**: the last name of the template, its `X` replaced, in the
directory that the other names lead to. -/
theorem exists_mkdir_of_returns {p : Path}
    (h : (createTempDirectory lib baseName (.ofString .posix s) w).1 = .ok p) :
    (created env s w).1 = true ∧ ∃ stem suffix ns n d b,
      cStr (fullTemplateStr baseName (.ofString .posix s)) = stem ++ sixX ∧
      suffix.length = sixX.length ∧ '/' ∉ suffix ∧ nul ∉ suffix ∧
      names (stem ++ suffix) = ns ++ [n] ∧ IsName n ∧
      walk (created env s w).2.fs env.symloopMax (env.start (stem ++ suffix)) ns = .ok (d, b) ∧
      (created env s w).2.fs.kind d = some .directory ∧
      (created env s w).2.fs.kind (d ++ [n]) = none ∧
      (createTempDirectory lib baseName (.ofString .posix s) w).2.fs =
        (created env s w).2.fs.addDirectory d n := by
  rw [createTempDirectory_eq] at h ⊢
  -- an error at the parent or at `mkdtemp` returns no path
  generalize created env s w = r at h ⊢
  obtain ⟨_ | _, w₁⟩ := r
  · cases h
  cases hm : lib.mkdtemp (cStr (fullTemplateStr baseName (.ofString .posix s))) w₁.fs with
  | none => simp [hm] at h
  | some r =>
    obtain ⟨dirName, fs'⟩ := r
    obtain ⟨stem, suffix, hstem, rfl, hlen, hslash, hnul, hmkdir⟩ := lib.of_some hm
    obtain ⟨ns, n, d, b, -, hn, hdot, hddot, hw, hd, hnone, hfs⟩ := mkdir_eq_ok hmkdir
    -- the name is one of a C string
    have hstem' : nul ∉ stem := fun hmem =>
      nul_notMem_cStr _ (hstem ▸ List.mem_append_left sixX hmem)
    have hdir : nul ∉ stem ++ suffix := by simp [hstem', hnul]
    have hname : IsName n := isName_of_mem_names hdir (by simp [hn]) hdot hddot
    refine ⟨rfl, stem, suffix, ns, n, d, b, hstem, hlen, hslash, hnul, hn, hname, hw, hd, hnone, ?_⟩
    simpa only [hm] using hfs

/-- A new entry in a directory is the only new entry. -/
theorem makesChild_addDirectory_iff {fs : FileSystem} {d : Loc} {n : Name}
    (hd : fs.kind d = some .directory) (hnone : fs.kind (d ++ [n]) = none) (hn : IsName n)
    {u : StdString} :
    MakesChild env baseName u fs (fs.addDirectory d n) ↔
      stat env (fs.addDirectory d n) u = .ok (d, .directory) ∧
        ∃ suffix, suffix.length = sixX.length ∧ n = baseName ++ suffix := by
  have hkind := FileSystem.kind_addDirectory hd hnone hn
  constructor
  · rintro ⟨d', suffix, hstat, hlen, -, hnew⟩
    have heq : d ++ [n] = d' ++ [baseName ++ suffix] :=
      (hnew (d ++ [n])).mp ⟨hnone, by simp [hkind]⟩
    -- there is one new entry, so the two are the same
    obtain ⟨rfl, hname⟩ := List.append_inj' heq rfl
    exact ⟨hstat, suffix, hlen, by simpa using hname⟩
  · rintro ⟨hstat, suffix, hlen, rfl⟩
    refine ⟨d, suffix, hstat, hlen, by rw [hkind, if_pos rfl], ?_⟩
    intro l
    rw [hkind]
    split_ifs with hl
    · exact iff_of_true ⟨hl ▸ hnone, Option.some_ne_none _⟩ hl
    · exact iff_of_false (fun h => h.2 h.1) hl

/-! ## The template -/

/-- The template of a plain base name is its parent, the base name and the six `X`. -/
theorem fullTemplateStr_of_isPlain (h : IsPlain baseName) (parentPath : Path) :
    fullTemplateStr baseName parentPath =
      Path.withSeparator .posix parentPath.path ++ (baseName ++ sixX) := by
  have hslash : '/' ∉ baseName ++ sixX := by simp [h.slash_notMem, slash_notMem_sixX]
  have hback : '\\' ∉ baseName ++ sixX := by simp [h.backslash_notMem, backslash_notMem_sixX]
  have hcomp : Path.IsComponent (baseName ++ sixX) := ⟨hslash, hback⟩
  rw [fullTemplateStr, Path.append_of_not_isAbsolute hcomp.isAbsolute,
    Path.ofString_component hslash hback]

/-- The template has no backslash. -/
theorem backslash_notMem_fullTemplateStr (baseName s : StdString) :
    '\\' ∉ fullTemplateStr baseName (.ofString .posix s) := by
  have ht := Path.backslash_notMem_ofString (baseName ++ sixX)
  have hs := Path.backslash_notMem_withSeparator (Path.backslash_notMem_ofString s)
  unfold fullTemplateStr Path.append
  split_ifs
  · exact ht
  · simp [hs, ht]

/-- A string with a null names nothing. -/
theorem nul_notMem_of_stat {fs : FileSystem} {u : StdString} {r : Loc × Kind}
    (h : stat env fs u = .ok r) : nul ∉ u := by
  intro hmem
  obtain ⟨-, ⟨b, hw⟩, -⟩ := stat_eq_ok.mp h
  obtain ⟨n, hn, hnul⟩ := exists_mem_names hmem nul_ne_slash
  -- the name with the null is no name of an entry
  have hsteps : n ∈ (Pathname.parse u).steps := List.mem_append_left _ hn
  rcases isName_of_walk hw n hsteps with rfl | rfl | hname
  · exact nul_notMem_dot hnul
  · exact nul_notMem_dotdot hnul
  · exact hname.nul_notMem hnul

theorem nul_mem_ofString {s : StdString} : nul ∈ (Path.ofString .posix s).path ↔ nul ∈ s := by
  rw [Path.ofString_path, stdReplace, List.mem_map]
  constructor
  · rintro ⟨c, hc, he⟩
    split_ifs at he with hb
    · exact absurd he (by decide)
    · exact he ▸ hc
  · intro h
    exact ⟨nul, h, if_neg (by decide)⟩

/-- The directory of a plain base name: its pathname goes from the parent to one name more. -/
theorem stem_of_isPlain (h : IsPlain baseName) (hs : nul ∉ s) {stem : StdString}
    (hstem : cStr (fullTemplateStr baseName (.ofString .posix s)) = stem ++ sixX) :
    stem = Path.withSeparator .posix (Path.ofString .posix s).path ++ baseName := by
  have hnul : nul ∉ fullTemplateStr baseName (.ofString .posix s) := by
    rw [fullTemplateStr_of_isPlain h]
    have hpath : nul ∉ Path.withSeparator .posix (Path.ofString .posix s).path := by
      rwa [nul_mem_withSeparator, nul_mem_ofString]
    simp [hpath, h.nul_notMem, nul_notMem_sixX]
  rw [cStr_of_nul_notMem hnul, fullTemplateStr_of_isPlain h, ← List.append_assoc] at hstem
  exact (List.append_cancel_right hstem).symm

/-! ## When the directory lies in the parent -/

/-- When the last name of the template is the base name and six characters, the base name is
plain. -/
theorem isPlain_of_names {stem suffix suffix' : StdString} {ns : List Name}
    (hstem : cStr (fullTemplateStr baseName (.ofString .posix s)) = stem ++ sixX)
    (hne : suffix ≠ []) (hslash : '/' ∉ suffix) (hlen : suffix'.length = suffix.length)
    (hn : names (stem ++ suffix) = ns ++ [baseName ++ suffix'])
    (hname : IsName (baseName ++ suffix')) : IsPlain baseName := by
  -- the base name is what stands before the six characters, so it is a part of the template
  obtain ⟨ns', m, hm, hmstem⟩ := names_append_of_slash_notMem stem hne hslash
  have hlast : baseName ++ suffix' = m ++ suffix := by
    simpa using (List.append_inj' (hn.symm.trans hm) rfl).2
  obtain rfl : baseName = m := (List.append_inj' hlast hlen).1
  refine ⟨?_, ?_, ?_⟩
  · exact fun hmem => hname.slash_notMem (List.mem_append_left _ hmem)
  · intro hmem
    apply backslash_notMem_fullTemplateStr baseName s
    apply mem_of_mem_cStr
    rw [hstem]
    exact List.mem_append_left _ (hmstem.subset hmem)
  · exact fun hmem => hname.nul_notMem (List.mem_append_left _ hmem)

/-- The path of a parent that was created is not empty. -/
theorem path_ne_nil_of_created (h : (created env s w).1 = true) :
    (Path.ofString .posix s).path ≠ [] := by
  intro hnil
  have hpath : pathname s = [] := by
    rw [pathname, hnil]
    rfl
  rw [created, run_createDirectories_of_nil hpath] at h
  cases h

/-- The pathname of the new directory, for a plain base name: it begins where the parent does, and
has one name more. -/
theorem names_of_isPlain (h : IsPlain baseName) (hs : nul ∉ s)
    (hpath : (Path.ofString .posix s).path ≠ []) {stem suffix : StdString}
    (hstem : cStr (fullTemplateStr baseName (.ofString .posix s)) = stem ++ sixX)
    (hne : suffix ≠ []) (hslash : '/' ∉ suffix) :
    env.start (stem ++ suffix) = env.start (Path.ofString .posix s).path ∧
      names (stem ++ suffix) =
        names (Path.ofString .posix s).path ++ [baseName ++ suffix] := by
  have hpiece : names (baseName ++ suffix) = [baseName ++ suffix] := by
    rw [names_of_slash_notMem (by simp [h.slash_notMem, hslash]), if_neg (by simp [hne])]
  rw [stem_of_isPlain h hs hstem, List.append_assoc]
  constructor
  · apply start_eq_of_absolute_eq
    rw [Pathname.parse, Pathname.parse, Path.head?_withSeparator hpath]
  · rw [names_withSeparator_append hpath, hpiece]

/-- **The new directory lies in the parent under its name exactly when** the base name has neither
separators nor nulls, and the parent's string has no null. -/
theorem staysInParent_iff
    (h : ∃ p, (createTempDirectory lib baseName (.ofString .posix s) w).1 = .ok p) :
    StaysInParent lib baseName s w ↔ IsPlain baseName ∧ nul ∉ s := by
  obtain ⟨p, hp⟩ := h
  obtain ⟨htrue, stem, suffix, ns, n, d, b, hstem, hlen, hslash, hnul, hn, hname, hw, hd, hnone,
    hfs⟩ := exists_mkdir_of_returns hp
  have hmakes : StaysInParent lib baseName s w ↔
      MakesChild env baseName (Path.ofString .posix s).path (created env s w).2.fs
        (createTempDirectory lib baseName (.ofString .posix s) w).2.fs :=
    ⟨fun h => h p hp, fun h _ _ => h⟩
  have hne : suffix ≠ [] := by
    rintro rfl
    cases hlen
  rw [hmakes, hfs, makesChild_addDirectory_iff hd hnone hname]
  constructor
  · rintro ⟨hstat, suffix', hlen', rfl⟩
    refine ⟨isPlain_of_names hstem hne hslash (hlen'.trans hlen.symm) hn hname, ?_⟩
    rw [← nul_mem_ofString]
    exact nul_notMem_of_stat hstat
  · rintro ⟨hplain, hs⟩
    have hpath := path_ne_nil_of_created htrue
    obtain ⟨hstart, hnames⟩ := names_of_isPlain hplain hs hpath hstem hne hslash
    -- the names before the last one are those of the parent
    obtain ⟨rfl, hlast⟩ := List.append_inj' (hn.symm.trans hnames) rfl
    rw [hstart] at hw
    have hle : (created env s w).2.fs ≤ (created env s w).2.fs.addDirectory d n :=
      (FileSystem.grown_addDirectory d n).le
    refine ⟨?_, suffix, hlen, by simpa using hlast⟩
    exact stat_directory_iff.mpr ⟨hpath, ⟨b, walk_of_le hle hw⟩, hle _ _ hd⟩

end Returns

/-! ## A function that keeps to the documentation -/

/-- A `mkdtemp` that always takes the same six characters. -/
def Mkdtemp.withSuffix (env : Env) (suffix : StdString) (hlen : suffix.length = sixX.length)
    (hslash : '/' ∉ suffix) (hnul : nul ∉ suffix) : Mkdtemp env where
  mkdtemp template fs :=
    let stem := template.take (template.length - sixX.length)
    if sixX <:+ template then
      match mkdir env fs (stem ++ suffix) with
      | .ok fs' => some (stem ++ suffix, fs')
      | .error _ => none
    else none
  of_some := by
    intro template fs dirName fs' h
    dsimp only at h
    split_ifs at h with hsix
    cases hm : mkdir env fs (template.take (template.length - sixX.length) ++ suffix) with
    | error e => simp [hm] at h
    | ok fs₁ =>
      simp only [hm, Option.some.injEq, Prod.mk.injEq] at h
      obtain ⟨rfl, rfl⟩ := h
      exact ⟨_, suffix, (List.suffix_iff_eq_append.mp hsix).symm, rfl, hlen, hslash, hnul, hm⟩

/-- `mkdtemp` with the characters `abcdef`. -/
def Mkdtemp.abcdef (env : Env) : Mkdtemp env :=
  .withSuffix env "abcdef".toList (by decide) (by decide) (by decide)

theorem staysInParent_iff_plain :
    StaysInParent (.abcdef (Env.ofCwd [])) "x".toList "p//".toList ⟨.rootOnly, 0⟩ ↔
      IsPlain "x".toList ∧ nul ∉ "p//".toList :=
  staysInParent_iff ⟨.ofString .posix "p//xabcdef".toList, by decide⟩

/-- The absolute base name `/x` replaces the parent `p`, and `/xabcdef` is made. -/
theorem not_staysInParent_absolute :
    ¬ StaysInParent (.abcdef (Env.ofCwd [])) "/x".toList "p".toList ⟨.rootOnly, 0⟩ := by
  intro h
  obtain ⟨d, suffix, -, -, -, hnew⟩ := h (.ofString .posix "/xabcdef".toList) (by decide)
  have heq := (hnew ["xabcdef".toList]).mp (by decide)
  -- the name of the new directory has no slash
  have hmem : "/x".toList ++ suffix ∈ ["xabcdef".toList] :=
    heq ▸ List.mem_append_right d List.mem_cons_self
  have hslash := congrArg List.head? (List.mem_singleton.mp hmem)
  cases hslash

end RcppUtils
