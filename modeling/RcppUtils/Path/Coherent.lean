import RcppUtils.Path.Append
import RcppUtils.Posix.Pathname

/-!
# Coherent paths

A path is coherent when its stored components are those of its string. Two things break this:
the separator that appending to an empty path puts in front has no component, and the loop of
`parent_path` starts from an empty path. What both leave behind is a rootless path: an absolute
one whose first component is missing.

## Main definitions

* `Coherent p`, `Rootless p`: all components of the string are stored, or all but the root

## Main results

* `Coherent.append_iff`, `Coherent.parentPath_iff`: when an operation keeps coherence
* `rootless_parentPath`: the parent of an absolute path of two components or more is rootless
-/

namespace RcppUtils

/-! ## Components -/

theorem mem_splitOn_of_mem_tokens {d : Char} {s c : StdString} (h : c ∈ tokens d s) :
    c ∈ s.splitOn d := by
  rw [splitOn_eq_tokens]
  exact List.mem_append_left _ h

theorem notMem_of_mem_tokens {d : Char} {s c : StdString} (h : c ∈ tokens d s) : d ∉ c :=
  (Posix.mem_of_mem_splitOn (mem_splitOn_of_mem_tokens h)).1

theorem mem_of_mem_tokens {d : Char} {s c : StdString} (h : c ∈ tokens d s) {a : Char}
    (ha : a ∈ c) : a ∈ s :=
  (Posix.mem_of_mem_splitOn (mem_splitOn_of_mem_tokens h)).2 a ha

/-- Only the empty string has no token. -/
theorem tokens_eq_nil {d : Char} {s : StdString} : tokens d s = [] ↔ s = [] := by
  refine ⟨?_, fun h => h ▸ tokens_nil d⟩
  intro h
  by_contra hs
  have hsplit := splitOn_eq_tokens d s
  rw [h, List.nil_append] at hsplit
  split_ifs at hsplit
  · exact hs (by simpa using congrArg ([d].intercalate ·) hsplit)
  · exact List.splitOn_ne_nil d s hsplit

/-- The first token is empty exactly when the string begins with the delimiter. -/
theorem head?_tokens {d : Char} {s : StdString} :
    (tokens d s).head? = some [] ↔ s.head? = some d := by
  cases s with
  | nil => simp
  | cons c s =>
    by_cases hc : c = d
    · subst hc
      have h := tokens_append_cons c [] s
      rw [List.nil_append] at h
      simp [h]
    by_cases hd : d ∈ c :: s
    · obtain ⟨u, v, he, hu⟩ := List.eq_append_cons_of_mem hd
      have hu0 : u ≠ [] := by
        rintro rfl
        exact hc (by simpa using congrArg List.head? he)
      rw [he, tokens_cons_of_notMem hu]
      simp [hc, hu0, ← he]
    · rw [tokens_of_notMem hd (by simp)]
      simp [hc]

/-- The string of a lone root. -/
theorem tokens_eq_singleton_nil {d : Char} {s : StdString} : tokens d s = [[]] ↔ s = [d] := by
  constructor
  · intro h
    have hhead : s.head? = some d := head?_tokens.mp (by simp [h])
    obtain ⟨t, rfl⟩ := List.head?_eq_some_iff.mp hhead
    rw [← List.nil_append (d :: t), tokens_append_cons] at h
    obtain rfl : t = [] := tokens_eq_nil.mp (by simpa using h)
    rfl
  · rintro rfl
    exact tokens_concat d []

theorem two_le_length_iff {α : Type} {cs : List α} :
    2 ≤ cs.length ↔ ∃ c c' cs', cs = c :: c' :: cs' := by
  match cs with
  | [] | [_] | c :: c' :: cs => simp

theorem exists_eq_singleton {α : Type} {cs : List α} (h : cs ≠ []) (h2 : ¬ 2 ≤ cs.length) :
    ∃ c, cs = [c] := by
  apply List.length_eq_one_iff.mp
  have := List.length_pos_iff.mpr h
  omega

namespace Path

/-- A component of a path: a string without separators. -/
structure IsComponent (c : StdString) : Prop where
  slash_notMem : '/' ∉ c
  backslash_notMem : '\\' ∉ c

theorem IsComponent.isAbsolute {c : StdString} (h : IsComponent c) :
    (ofString .posix c).isAbsolute .posix = false := by
  rw [ofString_component h.slash_notMem h.backslash_notMem, isAbsolute_eq_false_iff]
  exact fun hc => h.slash_notMem (List.mem_of_mem_head? hc)

/-! ## Coherent and rootless paths -/

/-- The stored components are those of the string. -/
structure Coherent (p : Path) : Prop where
  backslash_notMem : '\\' ∉ p.path
  pathAsVector_eq : p.pathAsVector = tokens '/' p.path

/-- The stored components are those of the string without the root in front. -/
structure Rootless (p : Path) : Prop where
  backslash_notMem : '\\' ∉ p.path
  tokens_eq : tokens '/' p.path = [] :: p.pathAsVector
  head?_ne : p.pathAsVector.head? ≠ some []

theorem coherent_iff {p : Path} : p.Coherent ↔ p = ofString .posix p.path := by
  constructor
  · rintro ⟨hb, hv⟩
    rw [ofString_of_notMem hb]
    exact congrArg (Path.mk p.path) hv
  · intro h
    refine ⟨h ▸ backslash_notMem_ofString _, ?_⟩
    have hv := ofString_pathAsVector p.path
    rwa [← h] at hv

theorem coherent_ofString (s : StdString) : (ofString .posix s).Coherent :=
  ⟨backslash_notMem_ofString s, ofString_pathAsVector s⟩

theorem coherent_default : (default : Path).Coherent := coherent_ofString []

/-- Coherent paths with one string are one path. -/
theorem Coherent.ext {p q : Path} (hp : p.Coherent) (hq : q.Coherent) (h : p.path = q.path) :
    p = q := by
  rw [coherent_iff.mp hp, coherent_iff.mp hq, h]

theorem Coherent.isComponent {p : Path} (hp : p.Coherent) {c : StdString}
    (hc : c ∈ p.pathAsVector) : IsComponent c := by
  rw [hp.pathAsVector_eq] at hc
  exact ⟨notMem_of_mem_tokens hc, fun h => hp.backslash_notMem (mem_of_mem_tokens hc h)⟩

theorem Rootless.isComponent {p : Path} (hp : p.Rootless) {c : StdString}
    (hc : c ∈ p.pathAsVector) : IsComponent c := by
  have hc' : c ∈ tokens '/' p.path := hp.tokens_eq ▸ List.mem_cons_of_mem _ hc
  exact ⟨notMem_of_mem_tokens hc', fun h => hp.backslash_notMem (mem_of_mem_tokens hc' h)⟩

theorem Rootless.not_coherent {p : Path} (hp : p.Rootless) : ¬ p.Coherent := by
  intro h
  -- the root is a component of the string that is not stored
  have := h.pathAsVector_eq.trans hp.tokens_eq
  simpa using congrArg List.length this

theorem Rootless.isAbsolute {p : Path} (hp : p.Rootless) : p.isAbsolute .posix = true :=
  isAbsolute_iff.mpr (head?_tokens.mp (by simp [hp.tokens_eq]))

theorem Rootless.path_ne_nil {p : Path} (hp : p.Rootless) : p.path ≠ [] := by
  intro h
  simpa [h] using hp.tokens_eq

theorem Coherent.pathAsVector_eq_nil {p : Path} (hp : p.Coherent) :
    p.pathAsVector = [] ↔ p.path = [] := by
  rw [hp.pathAsVector_eq, tokens_eq_nil]

/-- The components of a relative path begin with a name. -/
theorem Coherent.head?_ne {p : Path} (hp : p.Coherent) (h : p.isAbsolute .posix = false) :
    p.pathAsVector.head? ≠ some [] := by
  rw [hp.pathAsVector_eq, ne_eq, head?_tokens]
  exact isAbsolute_eq_false_iff.mp h

/-- The components of an absolute path begin with the root. -/
theorem Coherent.exists_cons {p : Path} (hp : p.Coherent) (h : p.isAbsolute .posix = true) :
    ∃ cs, p.pathAsVector = [] :: cs := by
  have hhead := head?_tokens.mpr (isAbsolute_iff.mp h)
  rw [← hp.pathAsVector_eq] at hhead
  exact List.head?_eq_some_iff.mp hhead

/-! ## Appending -/

theorem Coherent.append {p q : Path} (hp : p.Coherent) (hq : q.Coherent)
    (h : p.path ≠ [] ∨ q.isAbsolute .posix = true) : (p.append .posix q).Coherent := by
  by_cases habs : q.isAbsolute .posix = true
  · rwa [append_of_isAbsolute habs]
  · rw [append_of_not_isAbsolute (by simpa using habs)]
    constructor
    · simpa [hq.backslash_notMem] using backslash_notMem_withSeparator hp.backslash_notMem
    · have hne : p.path ≠ [] := h.resolve_right habs
      rw [tokens_withSeparator_append, if_neg hne, hp.pathAsVector_eq, hq.pathAsVector_eq]

/-- A relative path appended to an empty one is rootless. -/
theorem Coherent.rootless_append {p q : Path} (hp : p.Coherent) (hq : q.Coherent)
    (hnil : p.path = []) (habs : q.isAbsolute .posix = false) :
    (p.append .posix q).Rootless := by
  have hv : p.pathAsVector = [] := hp.pathAsVector_eq_nil.mpr hnil
  rw [append_of_not_isAbsolute habs, hv, List.nil_append]
  refine ⟨?_, ?_, hq.head?_ne habs⟩
  · simpa [hq.backslash_notMem] using backslash_notMem_withSeparator hp.backslash_notMem
  · rw [tokens_withSeparator_append, if_pos hnil, hq.pathAsVector_eq, List.singleton_append]

theorem Rootless.append {p q : Path} (hp : p.Rootless) (hq : q.Coherent)
    (habs : q.isAbsolute .posix = false) : (p.append .posix q).Rootless := by
  rw [append_of_not_isAbsolute habs]
  refine ⟨?_, ?_, ?_⟩
  · simpa [hq.backslash_notMem] using backslash_notMem_withSeparator hp.backslash_notMem
  · rw [tokens_withSeparator_append, if_neg hp.path_ne_nil, hp.tokens_eq, hq.pathAsVector_eq,
      List.cons_append]
  · rw [List.head?_append]
    cases hv : p.pathAsVector with
    | nil => simpa using hq.head?_ne habs
    | cons c cs => simpa [hv] using hp.head?_ne

/-- **When appending keeps coherence.** -/
theorem Coherent.append_iff {p q : Path} (hp : p.Coherent) (hq : q.Coherent) :
    (p.append .posix q).Coherent ↔ p.path ≠ [] ∨ q.isAbsolute .posix = true := by
  refine ⟨?_, hp.append hq⟩
  intro h
  by_contra! hne
  have habs : q.isAbsolute .posix = false := by simpa using hne.2
  exact (hp.rootless_append hq hne.1 habs).not_coherent h

/-! ## The parent -/

theorem parentStep_of_isAbsolute {p : Path} (h : p.isAbsolute .posix = true) (parent : Path)
    (it : StdString) :
    parentStep .posix p parent it = parent.append .posix (ofString .posix it) := by
  simp [parentStep, h, isAbsoluteWithDriveLetter]

theorem parentStep_of_ne_nil {p parent : Path} (h : parent.path ≠ []) (it : StdString) :
    parentStep .posix p parent it = parent.append .posix (ofString .posix it) := by
  simp [parentStep, h]

theorem parentStep_default {p : Path} (h : p.isAbsolute .posix = false) (it : StdString) :
    parentStep .posix p default it = ofString .posix it := by
  simp [parentStep, h, default]

theorem append_path_ne_nil {p q : Path} (hp : p.path ≠ []) (hq : q.isAbsolute .posix = false) :
    (p.append .posix q).path ≠ [] := by
  intro h
  have hhead := head?_withSeparator hp q.path
  rw [append_of_not_isAbsolute hq] at h
  rw [show withSeparator .posix p.path ++ q.path = [] from h] at hhead
  exact hp (List.head?_eq_none_iff.mp hhead.symm)

/-- The loop of `parent_path` keeps a non-empty coherent path coherent, and what it begins
with. -/
theorem coherent_foldl_parentStep (p : Path) {cs : List StdString} {parent : Path}
    (hcs : ∀ c ∈ cs, IsComponent c) (h : parent.Coherent) (hne : parent.path ≠ []) :
    (cs.foldl (parentStep .posix p) parent).Coherent ∧
      (cs.foldl (parentStep .posix p) parent).isAbsolute .posix = parent.isAbsolute .posix := by
  induction cs generalizing parent with
  | nil => exact ⟨h, rfl⟩
  | cons c cs ih =>
    obtain ⟨hc, hcs⟩ := List.forall_mem_cons.mp hcs
    rw [List.foldl_cons, parentStep_of_ne_nil hne]
    obtain ⟨hco, habs⟩ := ih hcs (h.append (coherent_ofString c) (.inl hne))
      (append_path_ne_nil hne hc.isAbsolute)
    rw [isAbsolute_append hne, hc.isAbsolute, Bool.or_false] at habs
    exact ⟨hco, habs⟩

/-- The loop of `parent_path` keeps a rootless path rootless. -/
theorem rootless_foldl_parentStep (p : Path) {cs : List StdString} {parent : Path}
    (hcs : ∀ c ∈ cs, IsComponent c) (h : parent.Rootless) :
    (cs.foldl (parentStep .posix p) parent).Rootless := by
  induction cs generalizing parent with
  | nil => exact h
  | cons c cs ih =>
    obtain ⟨hc, hcs⟩ := List.forall_mem_cons.mp hcs
    rw [List.foldl_cons, parentStep_of_ne_nil h.path_ne_nil]
    exact ih hcs (h.append (coherent_ofString c) hc.isAbsolute)

/-- The loop of `parent_path` stores the components that are not empty. -/
theorem pathAsVector_foldl_parentStep {p : Path} {cs : List StdString} {parent : Path}
    (h : p.isAbsolute .posix = true ∨ parent.path ≠ []) (hcs : ∀ c ∈ cs, IsComponent c) :
    (cs.foldl (parentStep .posix p) parent).pathAsVector =
      parent.pathAsVector ++ cs.filter (· ≠ []) := by
  induction cs generalizing parent with
  | nil => simp
  | cons c cs ih =>
    obtain ⟨hc, hcs⟩ := List.forall_mem_cons.mp hcs
    -- the piece is copied only in the first round of a relative path
    have hstep : parentStep .posix p parent c = parent.append .posix (ofString .posix c) := by
      rcases h with habs | hne
      · exact parentStep_of_isAbsolute habs parent c
      · exact parentStep_of_ne_nil hne c
    have hnext : p.isAbsolute .posix = true ∨
        (parent.append .posix (ofString .posix c)).path ≠ [] :=
      h.imp_right fun hne => append_path_ne_nil hne hc.isAbsolute
    rw [List.foldl_cons, hstep, ih hnext hcs, append_of_not_isAbsolute hc.isAbsolute,
      ofString_component hc.slash_notMem hc.backslash_notMem]
    by_cases hnil : c = [] <;> simp [hnil]

/-! ### The cases of `parent_path` -/

variable {p : Path}

theorem parentPath_of_nil (h : p.path = []) :
    p.parentPath .posix = some (ofString .posix []) := by
  rw [parentPath, if_pos h]

/-- Without components, `parent_path` goes before the first one. -/
theorem parentPath_eq_none (h : p.path ≠ []) (hv : p.pathAsVector = []) :
    p.parentPath .posix = none := by
  rw [parentPath, if_neg h, hv]

theorem parentPath_of_singleton (h : p.path ≠ []) {c : StdString} (hv : p.pathAsVector = [c]) :
    p.parentPath .posix =
      some (ofString .posix (if p.isAbsolute .posix then ['/'] else ['.'])) := by
  rw [parentPath, if_neg h, hv]
  cases p.isAbsolute .posix <;> rfl

theorem parentPath_of_two_le (h : p.path ≠ []) (hv : 2 ≤ p.pathAsVector.length) :
    p.parentPath .posix =
      some (p.pathAsVector.dropLast.foldl (parentStep .posix p) default) := by
  obtain ⟨c, c', cs, he⟩ := two_le_length_iff.mp hv
  rw [parentPath, if_neg h, he]
  simp [isAbsoluteWithDriveLetter]

/-- **The parent of a relative path** of two components or more. -/
theorem Coherent.parentPath_of_relative (hp : p.Coherent) (habs : p.isAbsolute .posix = false)
    (hv : 2 ≤ p.pathAsVector.length) :
    ∃ q, p.parentPath .posix = some q ∧ q.Coherent ∧ q.isAbsolute .posix = false ∧
      q.pathAsVector ≠ [] ∧ q.pathAsVector = p.pathAsVector.dropLast.filter (· ≠ []) := by
  have hne : p.path ≠ [] := by
    intro h
    simp [hp.pathAsVector_eq_nil.mpr h] at hv
  obtain ⟨c, c', cs, he⟩ := two_le_length_iff.mp hv
  -- the first component is not empty, so the loop starts from it
  have hc0 : c ≠ [] := by
    have := hp.head?_ne habs
    simpa [he] using this
  have hcs : ∀ d ∈ c :: (c' :: cs).dropLast, IsComponent d := by
    intro d hd
    apply hp.isComponent
    rw [he]
    exact (List.dropLast_sublist (c :: c' :: cs)).subset (by simpa using hd)
  obtain ⟨hc, hcs⟩ := List.forall_mem_cons.mp hcs
  have heq : ofString .posix c = ⟨c, [c]⟩ := by
    rw [ofString_component hc.slash_notMem hc.backslash_notMem, if_neg hc0]
  have hfirst : (ofString .posix c).path ≠ [] := by
    rwa [heq]
  obtain ⟨hco, hrel⟩ := coherent_foldl_parentStep p hcs (coherent_ofString c) hfirst
  have hvec := pathAsVector_foldl_parentStep (p := p) (.inr hfirst) hcs
  refine ⟨_, parentPath_of_two_le hne hv, ?_⟩
  rw [he, List.dropLast_cons_cons, List.foldl_cons, parentStep_default habs]
  refine ⟨hco, hrel.trans hc.isAbsolute, ?_, ?_⟩
  · rw [hvec, heq]
    exact List.cons_ne_nil _ _
  · rw [hvec, heq, List.filter_cons_of_pos (by simpa using hc0), List.singleton_append]

/-- **The parent of an absolute path** of two components or more lacks the root. -/
theorem rootless_parentPath (hp : p.Coherent ∨ p.Rootless) (habs : p.isAbsolute .posix = true)
    (hv : 2 ≤ p.pathAsVector.length) :
    ∃ q, p.parentPath .posix = some q ∧ q.Rootless ∧
      q.pathAsVector = p.pathAsVector.dropLast.filter (· ≠ []) := by
  have hne : p.path ≠ [] := fun h => by simp [isAbsolute, h] at habs
  have hcs : ∀ c ∈ p.pathAsVector.dropLast, IsComponent c := by
    intro c hc
    have hmem := (List.dropLast_sublist _).subset hc
    exact hp.elim (·.isComponent hmem) (·.isComponent hmem)
  refine ⟨_, parentPath_of_two_le hne hv, ?_, ?_⟩
  · obtain ⟨c, cs, he⟩ : ∃ c cs, p.pathAsVector.dropLast = c :: cs :=
      List.exists_cons_of_length_pos (by simp; omega)
    rw [he] at hcs ⊢
    obtain ⟨hc, hcs⟩ := List.forall_mem_cons.mp hcs
    -- the first round appends to the empty path
    rw [List.foldl_cons, parentStep_of_isAbsolute habs]
    apply rootless_foldl_parentStep p hcs
    exact coherent_default.rootless_append (coherent_ofString c) rfl hc.isAbsolute
  · exact pathAsVector_foldl_parentStep (.inl habs) hcs

/-- **When `parent_path` keeps coherence.** -/
theorem Coherent.parentPath_iff (hp : p.Coherent) :
    ∃ q, p.parentPath .posix = some q ∧
      (q.Coherent ↔ ¬ (p.isAbsolute .posix = true ∧ 2 ≤ p.pathAsVector.length)) := by
  -- the cases are those of the function: an empty path, two components or more, and one
  by_cases hnil : p.path = []
  · have habs : p.isAbsolute .posix = false := by simp [isAbsolute, hnil]
    exact ⟨_, parentPath_of_nil hnil, iff_of_true (coherent_ofString _) (by simp [habs])⟩
  have hne : p.pathAsVector ≠ [] := fun h => hnil (hp.pathAsVector_eq_nil.mp h)
  by_cases hv : 2 ≤ p.pathAsVector.length
  · cases habs : p.isAbsolute .posix with
    | false =>
      obtain ⟨q, hq, hco, -⟩ := hp.parentPath_of_relative habs hv
      exact ⟨q, hq, iff_of_true hco (by simp)⟩
    | true =>
      obtain ⟨q, hq, hroot, -⟩ := rootless_parentPath (.inl hp) habs hv
      exact ⟨q, hq, iff_of_false hroot.not_coherent (by simp [hv])⟩
  · obtain ⟨c, hc⟩ := exists_eq_singleton hne hv
    exact ⟨_, parentPath_of_singleton hnil hc, iff_of_true (coherent_ofString _) (by simp [hc])⟩

end Path

end RcppUtils
