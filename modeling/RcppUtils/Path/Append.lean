import RcppUtils.Path.Basic

/-!
# Joining paths on the POSIX build

The constructor turns backslashes into slashes, and appending puts one slash between two
relative operands. A joined path is the one of the standard library, unless a relative path is
appended to an empty one: the result is absolute then.

## Main definitions

* `stdAppend s t`: the generic string of the join of the standard library

## Main results

* `ofString_of_notMem`: the constructor on a string without backslashes
* `tokens_withSeparator_append`: the components of a joined string
* `append_assoc`: joining is associative unless the middle operand is empty
* `append_eq_stdAppend_iff`: when joining agrees with the standard library
-/

namespace RcppUtils

namespace Path

/-! ## The constructor -/

theorem ofString_path (s : StdString) : (ofString .posix s).path = stdReplace s '\\' '/' := by
  simp only [ofString, kPreferredSeparator, stdReplace, List.map_map]
  apply List.map_congr_left
  intro c _
  by_cases hc : c = '\\' <;> by_cases hc' : c = '/' <;> simp_all

theorem ofString_pathAsVector (s : StdString) :
    (ofString .posix s).pathAsVector = tokens '/' (ofString .posix s).path :=
  split_eq_tokens _ _

theorem backslash_notMem_stdReplace (s : StdString) : '\\' ∉ stdReplace s '\\' '/' := by
  simp only [stdReplace, List.mem_map, not_exists, not_and]
  intro c _
  split_ifs with hc
  · decide
  · exact hc

theorem stdReplace_of_notMem {s : StdString} (h : '\\' ∉ s) : stdReplace s '\\' '/' = s := by
  refine (List.map_congr_left fun c hc => if_neg ?_).trans (List.map_id s)
  exact ne_of_mem_of_not_mem hc h

/-- The constructor on a string without backslashes. -/
theorem ofString_of_notMem {s : StdString} (h : '\\' ∉ s) :
    ofString .posix s = ⟨s, tokens '/' s⟩ := by
  have hp : (ofString .posix s).path = s := (ofString_path s).trans (stdReplace_of_notMem h)
  have hv := ofString_pathAsVector s
  rw [hp] at hv
  exact congrArg₂ Path.mk hp hv

theorem backslash_notMem_ofString (s : StdString) : '\\' ∉ (ofString .posix s).path := by
  rw [ofString_path]
  exact backslash_notMem_stdReplace s

/-- The constructor on a single component. -/
theorem ofString_component {c : StdString} (hs : '/' ∉ c) (hb : '\\' ∉ c) :
    ofString .posix c = ⟨c, if c = [] then [] else [c]⟩ := by
  rw [ofString_of_notMem hb]
  split_ifs with hc
  · simp [hc]
  · rw [tokens_of_notMem hs hc]

/-! ## Absolute paths -/

theorem isAbsolute_iff {p : Path} : p.isAbsolute .posix = true ↔ p.path.head? = some '/' := by
  cases h : p.path <;> simp [isAbsolute, h, kPreferredSeparator, isAbsoluteWithDriveLetter]

theorem isAbsolute_eq_false_iff {p : Path} :
    p.isAbsolute .posix = false ↔ p.path.head? ≠ some '/' := by
  rw [← Bool.not_eq_true, isAbsolute_iff]

/-! ## Appending -/

theorem withSeparator_nil : withSeparator .posix [] = ['/'] := rfl

theorem withSeparator_of_ne_nil {u : StdString} (hu : u ≠ []) :
    withSeparator .posix u = if u.getLast? = some '/' then u else u ++ ['/'] := by
  by_cases h : u.getLast? = some '/' <;> simp [withSeparator, hu, h, kPreferredSeparator]

theorem head?_withSeparator {u : StdString} (hu : u ≠ []) (t : StdString) :
    (withSeparator .posix u ++ t).head? = u.head? := by
  obtain ⟨c, u, rfl⟩ := List.exists_cons_of_ne_nil hu
  rw [withSeparator_of_ne_nil (by simp)]
  split_ifs <;> simp

theorem backslash_notMem_withSeparator {u : StdString} (hu : '\\' ∉ u) :
    '\\' ∉ withSeparator .posix u := by
  unfold withSeparator
  split_ifs
  · simpa [kPreferredSeparator] using hu
  · exact hu

/-- **The components of a joined string** are those of its parts, and one empty component more
when the left part is empty. -/
theorem tokens_withSeparator_append (u t : StdString) :
    tokens '/' (withSeparator .posix u ++ t) =
      (if u = [] then [[]] else tokens '/' u) ++ tokens '/' t := by
  split_ifs with hu
  · -- the separator that is put in front begins with an empty component
    rw [hu, withSeparator_nil, List.singleton_append, ← List.nil_append ('/' :: t),
      tokens_append_cons, List.splitOn_nil]
  · rw [withSeparator_of_ne_nil hu]
    split_ifs with hlast
    · -- a separator that is there already is not doubled
      obtain ⟨u, rfl⟩ := List.getLast?_eq_some_iff.mp hlast
      rw [tokens_concat, List.append_assoc, List.singleton_append, tokens_append_cons]
    · rw [List.append_assoc, List.singleton_append, tokens_append_cons, splitOn_eq_tokens,
        if_neg (by simp [hu, hlast]), List.append_nil]

theorem append_of_isAbsolute {p q : Path} (h : q.isAbsolute .posix = true) :
    p.append .posix q = q := by
  rw [append, if_pos h]

theorem append_of_not_isAbsolute {p q : Path} (h : q.isAbsolute .posix = false) :
    p.append .posix q =
      ⟨withSeparator .posix p.path ++ q.path, p.pathAsVector ++ q.pathAsVector⟩ := by
  rw [append, if_neg (by simp [h])]

/-- What is appended to an empty path is absolute. -/
theorem isAbsolute_append_of_empty {p : Path} (hp : p.path = []) (q : Path) :
    (p.append .posix q).isAbsolute .posix = true := by
  by_cases hq : q.isAbsolute .posix = true
  · rwa [append_of_isAbsolute hq]
  · rw [append_of_not_isAbsolute (by simpa using hq), isAbsolute_iff, hp, withSeparator_nil]
    rfl

/-- What is appended to a non-empty path is absolute as one of the operands is. -/
theorem isAbsolute_append {p : Path} (hp : p.path ≠ []) (q : Path) :
    (p.append .posix q).isAbsolute .posix = (p.isAbsolute .posix || q.isAbsolute .posix) := by
  rw [Bool.eq_iff_iff, Bool.or_eq_true]
  by_cases hq : q.isAbsolute .posix = true
  · simp [append_of_isAbsolute hq, hq]
  · rw [append_of_not_isAbsolute (by simpa using hq), isAbsolute_iff, isAbsolute_iff]
    simp [head?_withSeparator hp, hq]

/-! ## Joining three paths -/

theorem withSeparator_withSeparator_append (u : StdString) {t : StdString} (ht : t ≠ []) :
    withSeparator .posix (withSeparator .posix u ++ t) =
      withSeparator .posix u ++ withSeparator .posix t := by
  rw [withSeparator_of_ne_nil (by simp [ht]), withSeparator_of_ne_nil ht,
    List.getLast?_append_of_ne_nil _ ht]
  split_ifs
  · rfl
  · exact List.append_assoc _ _ _

/-- **Joining is associative** unless the middle operand is empty. -/
theorem append_assoc (a c : Path) {b : Path} (hb : b.path ≠ []) :
    (a.append .posix b).append .posix c = a.append .posix (b.append .posix c) := by
  have habs := isAbsolute_append hb c
  by_cases hc : c.isAbsolute .posix = true
  · -- an absolute operand discards all that stands before it
    rw [append_of_isAbsolute hc, append_of_isAbsolute hc, append_of_isAbsolute hc]
  rw [Bool.not_eq_true] at hc
  rw [hc, Bool.or_false] at habs
  by_cases hba : b.isAbsolute .posix = true
  · rw [append_of_isAbsolute hba, append_of_isAbsolute (habs.trans hba)]
  rw [Bool.not_eq_true] at hba
  -- all three strings stay, with a separator after each of the first two
  rw [append_of_not_isAbsolute (habs.trans hba), append_of_not_isAbsolute hba,
    append_of_not_isAbsolute hc, append_of_not_isAbsolute hc]
  simp only [withSeparator_withSeparator_append _ hb, List.append_assoc]

/-- `a/`, `b` and `c`. -/
theorem append_assoc_abc :
    ((ofString .posix "a/".toList).append .posix (ofString .posix ['b'])).append .posix
        (ofString .posix ['c']) =
      (ofString .posix "a/".toList).append .posix
        ((ofString .posix ['b']).append .posix (ofString .posix ['c'])) :=
  append_assoc _ _ (by decide)

/-! ## Joining and the standard library -/

/-- The generic string of `std::filesystem::path(s) / std::filesystem::path(t)`. -/
def stdAppend (s t : StdString) : StdString :=
  if t.head? = some '/' then t
  else if s = [] ∨ s.getLast? = some '/' then s ++ t
  else s ++ '/' :: t

/-- Joining `s` and `t` agrees with the standard library, and makes no relative path
absolute. -/
def AgreesWithStd (s t : StdString) : Prop :=
  ((ofString .posix s).append .posix (ofString .posix t)).path = stdAppend s t ∧
    ((ofString .posix s).isAbsolute .posix = false → (ofString .posix t).isAbsolute .posix = false →
      ((ofString .posix s).append .posix (ofString .posix t)).isAbsolute .posix = false)

/-- **Joining agrees with the standard library** except where a relative path is appended to an
empty one. -/
theorem append_eq_stdAppend_iff {s t : StdString} (hs : '\\' ∉ s) (ht : '\\' ∉ t) :
    AgreesWithStd s t ↔ s ≠ [] ∨ t.head? = some '/' := by
  rw [AgreesWithStd, ofString_of_notMem hs, ofString_of_notMem ht]
  by_cases habs : t.head? = some '/'
  · have hq : isAbsolute .posix ⟨t, tokens '/' t⟩ = true := isAbsolute_iff.mpr habs
    simp [append_of_isAbsolute hq, hq, stdAppend, habs]
  have hq : isAbsolute .posix ⟨t, tokens '/' t⟩ = false := isAbsolute_eq_false_iff.mpr habs
  by_cases hnil : s = []
  · subst hnil
    refine iff_of_false ?_ (by simp [habs])
    intro h
    -- both operands are relative, but the result begins with a separator
    have := h.2 (by decide) hq
    rw [isAbsolute_append_of_empty rfl] at this
    cases this
  · refine iff_of_true ⟨?_, ?_⟩ (.inl hnil)
    · rw [append_of_not_isAbsolute hq, withSeparator_of_ne_nil hnil]
      by_cases hlast : s.getLast? = some '/' <;> simp [stdAppend, habs, hnil, hlast]
    · intro hp _
      rw [isAbsolute_append hnil, hp, hq]
      rfl

theorem append_eq_stdAppend_iff_foo :
    AgreesWithStd "foo/".toList "bar".toList ↔
      "foo/".toList ≠ [] ∨ "bar".toList.head? = some '/' :=
  append_eq_stdAppend_iff (by decide) (by decide)

/-- The relative path `a` appended to an empty path is the absolute path `/a`. -/
theorem not_agreesWithStd_empty : ¬ AgreesWithStd [] ['a'] := by
  unfold AgreesWithStd
  decide

end Path

end RcppUtils
