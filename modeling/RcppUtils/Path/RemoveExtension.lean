import RcppUtils.Path.Extension
import RcppUtils.Text.Cut

/-!
# Removing extensions

Each round of `remove_extension` cuts the whole string at its last dot and builds a path from what
is left. The rounds add up, and stop when no dot is left. They do not see where the last component
begins, and they cut at a final dot, which `extension` drops.

## Main definitions

* `RemovesExtensions os p`: what `n` rounds do with `p`
* `directory os s`, `lastComponent os s`: a string around its last separator
* `KeepsDirectory`, `Complementary`: what is said of the removal and the directory, and of the
  removal and the extension

## Main results

* `removesExtensions_ofString`: the rounds add up, and cut at the right dot
* `keepsDirectory_iff`: when a removal stays in the last component
* `complementary_iff`: when removal and extension are complementary
-/

namespace RcppUtils

namespace Path

/-! ## One round -/

theorem findLastOf_of_notMem {s : StdString} {c : Char} (h : c ∉ s) : findLastOf s c = none := by
  rw [findLastOf, List.idxOf?_eq_none_iff.mpr (by simpa using h), Option.map_none]

theorem findLastOf_append (u : StdString) {v : StdString} {c : Char} (h : c ∉ v) :
    findLastOf (u ++ c :: v) c = some u.length := by
  have hv : v.reverse.findIdx? (· == c) = none :=
    List.idxOf?_eq_none_iff.mpr (by simpa using h)
  have hidx : (u ++ c :: v).reverse.idxOf? c = some v.length := by
    rw [List.reverse_append, List.reverse_cons, List.append_assoc, List.idxOf?,
      List.findIdx?_append, hv]
    simp [List.findIdx?_cons]
  rw [findLastOf, hidx, Option.map_some]
  simp only [List.length_append, List.length_cons, Option.some.injEq]
  omega

variable {os : Platform} {p : Path}

/-- Without a dot the loop ends. -/
theorem removeExtensionLoop_of_notMem (h : '.' ∉ p.path) (n : ℕ) :
    removeExtensionLoop os n p = p := by
  cases n with
  | zero => rfl
  | succ n => rw [removeExtensionLoop, findLastOf_of_notMem h]

/-- A round cuts at the last dot. -/
theorem removeExtensionLoop_of_dot {u v : StdString} (hp : p.path = u ++ '.' :: v) (hv : '.' ∉ v)
    (n : ℕ) : removeExtensionLoop os (n + 1) p = removeExtensionLoop os n (ofString os u) := by
  rw [removeExtensionLoop, hp, findLastOf_append u hv]
  simp

/-! ## All rounds -/

theorem removeExtensionLoop_add (m n : ℕ) (p : Path) :
    removeExtensionLoop os (m + n) p = removeExtensionLoop os n (removeExtensionLoop os m p) := by
  induction m generalizing p with
  | zero => rw [Nat.zero_add, removeExtensionLoop]
  | succ m ih =>
    by_cases hdot : '.' ∈ p.path
    · obtain ⟨u, v, hp, hv⟩ := exists_eq_append_last hdot
      rw [Nat.succ_add, removeExtensionLoop_of_dot hp hv, removeExtensionLoop_of_dot hp hv, ih]
    · simp only [removeExtensionLoop_of_notMem hdot]

/-- **The rounds cut** at one dot each, as long as there are dots. -/
theorem cutsBefore_removeExtensionLoop (hp : Native os p.path) (n : ℕ) :
    CutsBefore '.' (min n (p.path.count '.')) p.path (removeExtensionLoop os n p).path := by
  induction n generalizing p with
  | zero =>
    rw [Nat.zero_min]
    exact CutsBefore.refl '.' p.path
  | succ n ih =>
    by_cases hdot : '.' ∈ p.path
    · obtain ⟨u, v, he, hv⟩ := exists_eq_append_last hdot
      have hu : Native os u := hp.mono fun c hc => by simp [he, hc]
      have hcount : p.path.count '.' = u.count '.' + 1 := by
        rw [he]
        exact (CutsBefore.last u hv).count_eq
      have hcut := ih (p := ofString os u) (native_ofString u)
      rw [hu.ofString_path] at hcut
      rw [removeExtensionLoop_of_dot he hv, hcount, Nat.succ_min_succ, he]
      exact (CutsBefore.last u hv).trans hcut
    · rw [removeExtensionLoop_of_notMem hdot, List.count_eq_zero.mpr hdot, Nat.min_zero]
      exact CutsBefore.refl '.' p.path

/-- Removing extensions `m` times and then `n` times is removing them `m + n` times; the string is
cut before the `n`-th dot from its end, or the first dot if there are fewer; and no dot is left
when there were at most `n`. -/
structure RemovesExtensions (os : Platform) (p : Path) : Prop where
  add : ∀ m n : ℕ,
    (p.removeExtension os m).removeExtension os n = p.removeExtension os (m + n : ℕ)
  cuts : ∀ n : ℕ,
    CutsBefore '.' (min n (p.path.count '.')) p.path (p.removeExtension os n).path
  dot_notMem : ∀ n : ℕ, p.path.count '.' ≤ n → '.' ∉ (p.removeExtension os n).path
  saturated : ∀ n : ℕ, p.path.count '.' ≤ n →
    ∀ k : ℤ, (p.removeExtension os n).removeExtension os k = p.removeExtension os n

/-- **Removing extensions composes and saturates.** -/
theorem removesExtensions_ofString (os : Platform) (s : StdString) :
    RemovesExtensions os (ofString os s) := by
  have hnat : Native os (ofString os s).path := native_ofString s
  have hcuts := cutsBefore_removeExtensionLoop hnat
  have hdot : ∀ n : ℕ, (ofString os s).path.count '.' ≤ n →
      '.' ∉ (removeExtensionLoop os n (ofString os s)).path := by
    intro n hn
    have hcount := (hcuts n).count_eq
    rw [Nat.min_eq_right hn] at hcount
    exact List.count_eq_zero.mp (by omega)
  constructor
  · intro m n
    exact (removeExtensionLoop_add m n _).symm
  · exact hcuts
  · exact hdot
  · intro n hn k
    exact removeExtensionLoop_of_notMem (hdot n hn) k.toNat

/-! ## The directory -/

/-- The string up to its last separator, and with it. -/
def directory (os : Platform) (s : StdString) : StdString :=
  s.rdropWhile (· ≠ kPreferredSeparator os)

/-- The string behind its last separator. -/
def lastComponent (os : Platform) (s : StdString) : StdString :=
  s.rtakeWhile (· ≠ kPreferredSeparator os)

theorem directory_append_lastComponent (os : Platform) (s : StdString) :
    directory os s ++ lastComponent os s = s :=
  List.rdropWhile_append_rtakeWhile

/-- The directory is left after removing `n` extensions. -/
def KeepsDirectory (os : Platform) (p : Path) (n : ℤ) : Prop :=
  directory os p.path <+: (p.removeExtension os n).path

/-- **A removal stays in the last component exactly when** this has a dot for each round, or the
directory has none. -/
theorem keepsDirectory_iff (os : Platform) (s : StdString) (n : ℤ) :
    KeepsDirectory os (ofString os s) n ↔
      n ≤ (lastComponent os (ofString os s).path).count '.' ∨
        '.' ∉ directory os (ofString os s).path := by
  have hnat : Native os (ofString os s).path := native_ofString s
  have hcut := cutsBefore_removeExtensionLoop hnat n.toNat
  have happ := directory_append_lastComponent os (ofString os s).path
  have hcount : (ofString os s).path.count '.' =
      (directory os (ofString os s).path).count '.' +
        (lastComponent os (ofString os s).path).count '.' := by
    rw [← List.count_append, happ]
  rw [hcount] at hcut
  nth_rewrite 3 [← happ] at hcut
  rw [KeepsDirectory, removeExtension, hcut.prefix_iff, ← List.count_eq_zero]
  omega

/-- The only extension of `a.b/c` begins in the directory. -/
theorem not_keepsDirectory : ¬ KeepsDirectory .posix (ofString .posix "a.b/c".toList) 1 := by
  unfold KeepsDirectory
  decide

/-! ## The extension -/

/-- What is left after removing one extension, and the extension, make up the string. -/
def Complementary (os : Platform) (p : Path) : Prop :=
  ∃ q, p.extension os = some q ∧ (p.removeExtension os 1).path ++ q.path = p.path

theorem removeExtension_one_of_dot {u v : StdString} (hp : p.path = u ++ '.' :: v) (hv : '.' ∉ v)
    (hu : Native os u) : (p.removeExtension os 1).path = u := by
  have hloop : p.removeExtension os 1 = ofString os u := removeExtensionLoop_of_dot hp hv 0
  rw [hloop, hu.ofString_path]

theorem complementary_iff_of_eq {q : Path} (h : p.extension os = some q) :
    Complementary os p ↔ (p.removeExtension os 1).path ++ q.path = p.path := by
  simp [Complementary, h]

/-- Behind a final dot there is nothing, but the extension begins at the dot before it. -/
theorem complementary_iff_of_last_dot (hnat : Native os p.path) {u : StdString}
    (hp : p.path = u ++ ['.']) : Complementary os p ↔ u.getLast? = some '.' := by
  have hu : Native os u := hnat.mono fun c hc => by simp [hp, hc]
  have hremove := removeExtension_one_of_dot hp List.not_mem_nil hu
  by_cases hdot : '.' ∈ u
  · obtain ⟨u, w, rfl, hw⟩ := exists_eq_append_last hdot
    have hnw : Native os w := hnat.mono fun c hc => by simp [hp, hc]
    rw [complementary_iff_of_eq (extension_of_last_dot hp hw), hremove, hnw.dot_cons.ofString_path,
      hp, List.append_cancel_left_eq, List.getLast?_append_of_ne_nil _ (List.cons_ne_nil _ _)]
    rcases eq_or_ne w [] with rfl | hne
    · simp
    · refine iff_of_false (fun h => hne (List.cons.inj h).2) ?_
      rw [List.getLast?_cons_of_ne_nil hne]
      exact fun h => hw (List.mem_of_getLast? h)
  · -- the final dot is removed, and is no part of the extension
    rw [complementary_iff_of_eq (extension_of_only_dot hp hdot), hremove, hp]
    refine iff_of_false ?_ fun h => hdot (List.mem_of_getLast? h)
    cases os <;> simp [ofString, stdReplace]

theorem dots_suffix_concat_iff {u : StdString} :
    ['.', '.'] <:+ u ++ ['.'] ↔ u.getLast? = some '.' := by
  rw [List.getLast?_eq_some_iff]
  constructor
  · rintro ⟨w, hw⟩
    have he : w ++ ['.'] ++ ['.'] = u ++ ['.'] := by
      rw [← hw, List.append_assoc, List.singleton_append]
    exact ⟨w, (List.append_cancel_right he).symm⟩
  · rintro ⟨w, rfl⟩
    exact ⟨w, by simp⟩

/-- **Removal and extension are complementary exactly when** the string does not end in a single
dot. -/
theorem complementary_iff {os : Platform} {s : StdString} (hne : (ofString os s).path ≠ []) :
    Complementary os (ofString os s) ↔
      ((ofString os s).path.getLast? = some '.' → ['.', '.'] <:+ (ofString os s).path) := by
  have hnat : Native os (ofString os s).path := native_ofString s
  generalize ofString os s = p at hne hnat ⊢
  by_cases hdot : '.' ∈ p.path
  · obtain ⟨u, v, hp, hv⟩ := exists_eq_append_last hdot
    rcases eq_or_ne v [] with rfl | hvne
    · rw [complementary_iff_of_last_dot hnat hp, hp, dots_suffix_concat_iff]
      simp
    · have hu : Native os u := hnat.mono fun c hc => by simp [hp, hc]
      have hnv : Native os v := hnat.mono fun c hc => by simp [hp, hc]
      have hlast : p.path.getLast? ≠ some '.' := by
        rw [hp, List.getLast?_append_of_ne_nil _ (List.cons_ne_nil _ _),
          List.getLast?_cons_of_ne_nil hvne]
        exact fun h => hv (List.mem_of_getLast? h)
      rw [complementary_iff_of_eq (extension_of_dot hp hv hvne),
        removeExtension_one_of_dot hp hv hu, hnv.dot_cons.ofString_path]
      exact iff_of_true hp.symm fun h => absurd h hlast
  · -- nothing is removed, and there is no extension
    rw [complementary_iff_of_eq (extension_of_notMem hne hdot)]
    refine iff_of_true ?_ fun h => absurd (List.mem_of_getLast? h) hdot
    rw [removeExtension, removeExtensionLoop_of_notMem hdot]
    cases os <;> simp [ofString, stdReplace]

theorem complementary_iff_dots :
    Complementary .posix (ofString .posix "a.b..".toList) ↔
      ((ofString .posix "a.b..".toList).path.getLast? = some '.' →
        ['.', '.'] <:+ (ofString .posix "a.b..".toList).path) :=
  complementary_iff (by decide)

/-- The final dot of `foo.` is removed, and the extension is empty. -/
theorem not_complementary_foo : ¬ Complementary .posix (ofString .posix "foo.".toList) := by
  rintro ⟨q, hq, he⟩
  obtain rfl : ofString .posix [] = q := Option.some_inj.mp hq
  revert he
  decide

end Path

end RcppUtils
