import RcppUtils.Path.Operations
import RcppUtils.Text.Join

/-!
# The parent and the last component

A parent is built anew from the components before the last one: separators that are doubled or
stand at the end are lost, and the root, if there is one, is put in front. The last component
joined to it gives back the names of the path, and the path itself if it had no such separators.

## Main definitions

* `rootOf s`: the component in front of the names of an absolute path
* `Recomposes p`: the parent and the last component give back the path

## Main results

* `tokens_eq_of_no_double`: a string without doubled and final separators has no empty component
  but the root
* `tokens_parentPath`: the components of the string of a parent
* `Reachable.recomposes`: every path that a program can hold is recomposed
-/

namespace RcppUtils

open Posix

/-! ## Strings without doubled separators -/

/-- An empty string that is not the first leaves two delimiters in a row or a final one. -/
theorem infix_or_getLast?_of_nil_mem_tail {d : Char} {xs : List StdString} (h : [] ∈ xs.tail) :
    [d, d] <:+: [d].intercalate xs ∨ ([d].intercalate xs).getLast? = some d := by
  induction xs with
  | nil => simp at h
  | cons x xs ih =>
    rw [List.tail_cons] at h
    obtain ⟨y, ys, rfl⟩ := List.exists_cons_of_ne_nil (List.ne_nil_of_mem h)
    rw [List.intercalate_cons_of_ne_nil (List.cons_ne_nil y ys), List.append_assoc]
    rcases List.mem_cons.mp h with rfl | h
    · -- the empty string stands right behind the first one
      rcases eq_or_ne ys [] with rfl | hne
      · right
        simp
      · left
        rw [List.intercalate_cons_of_ne_nil hne]
        exact ⟨x, [d].intercalate ys, by simp⟩
    · rcases ih h with hdd | hlast
      · exact .inl (hdd.trans ((List.suffix_append _ _).isInfix.trans
          (List.suffix_append _ _).isInfix))
      · right
        have hne : [d].intercalate (y :: ys) ≠ [] := by
          intro hnil
          simp [hnil] at hlast
        rw [List.getLast?_append_of_ne_nil _ (by simp), List.getLast?_append_of_ne_nil _ hne]
        exact hlast

/-- The component in front of the names of a string: the root, if the string begins with one. -/
def rootOf (s : StdString) : List StdString := if s.head? = some '/' then [[]] else []

theorem filter_rootOf (s : StdString) : (rootOf s).filter (· ≠ []) = [] := by
  unfold rootOf
  split_ifs <;> rfl

/-- A string without doubled and final separators has no empty component but the root. -/
theorem tokens_eq_of_no_double {s : StdString} (hdd : ¬ ['/', '/'] <:+: s)
    (hlast : s.getLast? ≠ some '/') :
    tokens '/' s = rootOf s ++ (tokens '/' s).filter (· ≠ []) := by
  have hs : ['/'].intercalate (tokens '/' s) = s := by
    have h := intercalate_tokens '/' s
    rwa [if_neg hlast, List.append_nil] at h
  have htail : [] ∉ (tokens '/' s).tail := by
    intro h
    have hor := infix_or_getLast?_of_nil_mem_tail (d := '/') h
    rw [hs] at hor
    exact hor.elim hdd hlast
  have hroot := head?_tokens (d := '/') (s := s)
  cases htok : tokens '/' s with
  | nil =>
    rw [tokens_eq_nil.mp htok]
    rfl
  | cons c cs =>
    rw [htok] at htail hroot
    have hcs : cs.filter (· ≠ []) = cs := by
      rw [List.filter_eq_self]
      intro a ha
      simpa using ne_of_mem_of_not_mem ha htail
    by_cases hc : c = []
    · rw [rootOf, if_pos (hroot.mp (by simp [hc])), hc, List.filter_cons_of_neg (by simp), hcs,
        List.singleton_append]
    · rw [rootOf, if_neg (fun h => hc (by simpa using hroot.mpr h)), List.nil_append,
        List.filter_cons_of_pos (by simpa using hc), hcs]

/-- Strings without a final separator that have the same tokens are equal. -/
theorem eq_of_tokens_eq {s t : StdString} (h : tokens '/' s = tokens '/' t)
    (hs : s.getLast? ≠ some '/') (ht : t.getLast? ≠ some '/') : s = t := by
  have hs' := intercalate_tokens '/' s
  have ht' := intercalate_tokens '/' t
  rw [if_neg hs, List.append_nil] at hs'
  rw [if_neg ht, List.append_nil] at ht'
  rw [← hs', h, ht']

/-- The last token of a string without a final separator is not empty. -/
theorem getLast?_tokens_ne {s : StdString} (h : s.getLast? ≠ some '/') :
    (tokens '/' s).getLast? ≠ some [] := by
  intro hnil
  have hs : s ≠ [] := by
    rintro rfl
    simp at hnil
  have hsplit := splitOn_eq_tokens '/' s
  rw [if_neg (by simp [hs, h]), List.append_nil] at hsplit
  rw [← hsplit] at hnil
  exact ((getLast?_splitOn '/' s).mp hnil).elim hs h

theorem names_eq_filter_tokens (s : StdString) : names s = (tokens '/' s).filter (· ≠ []) := by
  rw [names, splitOn_eq_tokens, List.filter_append]
  split_ifs <;> simp

namespace Path

variable {p : Path}

theorem rootOf_of_isAbsolute (h : p.isAbsolute .posix = true) : rootOf p.path = [[]] :=
  if_pos (isAbsolute_iff.mp h)

theorem rootOf_of_not_isAbsolute (h : p.isAbsolute .posix = false) : rootOf p.path = [] :=
  if_neg (isAbsolute_eq_false_iff.mp h)

/-- The names of a path are its components that are not empty. -/
theorem names_path (hp : p.Coherent ∨ p.Rootless) :
    names p.path = p.pathAsVector.filter (· ≠ []) := by
  rw [names_eq_filter_tokens]
  rcases hp with hp | hp
  · rw [hp.pathAsVector_eq]
  · rw [hp.tokens_eq, List.filter_cons_of_neg (by simp)]

theorem path_ne_nil_of_pathAsVector (hp : p.Coherent ∨ p.Rootless) (hne : p.pathAsVector ≠ []) :
    p.path ≠ [] := by
  rcases hp with hp | hp
  · exact fun h => hne (hp.pathAsVector_eq_nil.mpr h)
  · exact hp.path_ne_nil

/-! ## The parent and the last component -/

/-- **The string of a parent** has the root of the path and the names before the last
component. -/
theorem tokens_parentPath (hp : p.Coherent ∨ p.Rootless) (hne : p.pathAsVector ≠ [])
    (hone : ¬ (p.isAbsolute .posix = false ∧ p.pathAsVector.length = 1)) :
    ∃ q, p.parentPath .posix = some q ∧ q.path ≠ [] ∧
      q.isAbsolute .posix = p.isAbsolute .posix ∧
      tokens '/' q.path = rootOf p.path ++ p.pathAsVector.dropLast.filter (· ≠ []) := by
  cases habs : p.isAbsolute .posix with
  | true =>
    rw [rootOf_of_isAbsolute habs]
    by_cases hv : 2 ≤ p.pathAsVector.length
    · obtain ⟨q, hq, hroot, hvec⟩ := rootless_parentPath hp habs hv
      refine ⟨q, hq, hroot.path_ne_nil, hroot.isAbsolute, ?_⟩
      rw [hroot.tokens_eq, hvec, List.singleton_append]
    · -- the parent of a single component is the root
      obtain ⟨c, hc⟩ := exists_eq_singleton hne hv
      have hparent := parentPath_of_singleton (path_ne_nil_of_pathAsVector hp hne) hc
      rw [habs, if_pos rfl] at hparent
      refine ⟨_, hparent, by decide, by decide, ?_⟩
      rw [hc, List.dropLast_singleton]
      decide
  | false =>
    rw [rootOf_of_not_isAbsolute habs]
    -- a single relative component is left out by `hone`, so there are two of them
    have hco : p.Coherent := hp.resolve_right fun h => by simp [h.isAbsolute] at habs
    have hv : 2 ≤ p.pathAsVector.length := by
      have hpos := List.length_pos_iff.mpr hne
      have hlen : p.pathAsVector.length ≠ 1 := fun h => hone ⟨habs, h⟩
      omega
    obtain ⟨q, hq, hqco, hrel, hqne, hvec⟩ := hco.parentPath_of_relative habs hv
    refine ⟨q, hq, path_ne_nil_of_pathAsVector (.inl hqco) hqne, hrel, ?_⟩
    rw [← hqco.pathAsVector_eq, hvec, List.nil_append]

/-- The last component of a path, as a path. -/
theorem exists_filename (hp : p.Coherent ∨ p.Rootless) (hne : p.pathAsVector ≠ []) :
    ∃ c, IsComponent c ∧ p.pathAsVector = p.pathAsVector.dropLast ++ [c] ∧
      p.filename .posix = some (ofString .posix c) := by
  have hlast := List.getLast?_eq_some_getLast hne
  refine ⟨p.pathAsVector.getLast hne, ?_, (List.dropLast_append_getLast hne).symm, ?_⟩
  · have hmem := List.getLast_mem hne
    exact hp.elim (·.isComponent hmem) (·.isComponent hmem)
  · rw [filename, if_neg (path_ne_nil_of_pathAsVector hp hne), hlast, Option.map_some]

/-- The parent of `p` joined with its last component: absolute exactly when `p` is, with the names
of `p`, and with the string of `p` unless that has doubled or final separators. -/
def Recomposes (p : Path) : Prop :=
  ∃ parent name, p.parentPath .posix = some parent ∧ p.filename .posix = some name ∧
    (parent.append .posix name).isAbsolute .posix = p.isAbsolute .posix ∧
    names (parent.append .posix name).path = names p.path ∧
    (¬ ['/', '/'] <:+: p.path → p.path.getLast? ≠ some '/' →
      (parent.append .posix name).path = p.path)

/-- The components of a parent joined with a component are those of both. -/
theorem tokens_append_component {q : Path} (hq : q.path ≠ []) {c : StdString}
    (hc : IsComponent c) :
    tokens '/' (q.append .posix (ofString .posix c)).path =
      tokens '/' q.path ++ [c].filter (· ≠ []) := by
  rw [append_of_not_isAbsolute hc.isAbsolute, tokens_withSeparator_append, if_neg hq,
    ofString_component hc.slash_notMem hc.backslash_notMem]
  by_cases hnil : c = []
  · simp [hnil]
  · rw [tokens_of_notMem hc.slash_notMem hnil, List.filter_cons_of_pos (by simpa using hnil),
      List.filter_nil]

/-- What ends in a component that is not empty has no final separator. -/
theorem getLast?_append_component {q : Path} {c : StdString} (hc : IsComponent c) (hne : c ≠ []) :
    (q.append .posix (ofString .posix c)).path.getLast? ≠ some '/' := by
  rw [append_of_not_isAbsolute hc.isAbsolute,
    ofString_component hc.slash_notMem hc.backslash_notMem, List.getLast?_append_of_ne_nil _ hne]
  exact fun h => hc.slash_notMem (List.mem_of_getLast? h)

/-- The last component of a path without a final separator is not empty. -/
theorem last_ne_nil (hp : p.Coherent ∨ p.Rootless) (hlast : p.path.getLast? ≠ some '/')
    {cs : List StdString} {c : StdString} (hv : p.pathAsVector = cs ++ [c]) : c ≠ [] := by
  rintro rfl
  apply getLast?_tokens_ne hlast
  rcases hp with hp | hp
  · rw [← hp.pathAsVector_eq, hv, List.getLast?_concat]
  · rw [hp.tokens_eq, hv, ← List.cons_append, List.getLast?_concat]

/-- **The parent and the last component give back the path**, unless it is a single relative
component. -/
theorem Reachable.recomposes (h : Reachable p) (hne : p.pathAsVector ≠ [])
    (hone : ¬ (p.isAbsolute .posix = false ∧ p.pathAsVector.length = 1)) : Recomposes p := by
  have hp := h.coherent_or_rootless
  obtain ⟨q, hparent, hqne, habs, htok⟩ := tokens_parentPath hp hne hone
  obtain ⟨c, hc, hv, hname⟩ := exists_filename hp hne
  -- the joined string has the root and the names of the path
  have hjoin : tokens '/' (q.append .posix (ofString .posix c)).path =
      rootOf p.path ++ names p.path := by
    rw [tokens_append_component hqne hc, htok, List.append_assoc, ← List.filter_append, ← hv,
      names_path hp]
  refine ⟨q, ofString .posix c, hparent, hname, ?_, ?_, ?_⟩
  · rw [isAbsolute_append hqne, hc.isAbsolute, Bool.or_false, habs]
  · rw [names_eq_filter_tokens, hjoin, List.filter_append, filter_rootOf, List.nil_append, names,
      List.filter_filter]
    simp
  · intro hdd hlast
    have hcne := last_ne_nil hp hlast hv
    refine eq_of_tokens_eq ?_ (getLast?_append_component hc hcne) hlast
    rw [hjoin, names_eq_filter_tokens, ← tokens_eq_of_no_double hdd hlast]

/-- The parent of `/a//b/c` and its last component: the parent of `/a/b` is rootless. -/
theorem recomposes_parentPath :
    Recomposes ⟨"/a/b".toList, ["a".toList, "b".toList]⟩ :=
  Reachable.recomposes
    ⟨[.construct 0 "/a//b/c".toList, .parentPath 1 0], _, 1, rfl, by decide⟩ (by decide)
    (by decide)

end Path

end RcppUtils
