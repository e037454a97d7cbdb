import RcppUtils.Posix.SystemCall

/-!
# Search paths

A file is searched for in a list of directories, and the first one that has it decides. Two ways
to look a file up may differ in one directory only; the searches then often agree all the same.

## Main definitions

* `regularFile env fs s`: the regular file that a pathname resolves to

## Main results

* `findSome?_eq_findSome?_iff`: when two searches that differ in one place agree
* `stat_slash_slash`: a second slash in a pathname makes no difference
-/

namespace Posix

/-! ## Two searches -/

section FindSome

variable {α β : Type*}

/-- A search finds what there is in the first place that has something. -/
theorem findSome?_eq_bind_find? (look : α → Option β) (ds : List α) :
    ds.findSome? look = (ds.find? fun d => look d ≠ none).bind look := by
  induction ds with
  | nil => rfl
  | cons d ds ih =>
    rw [List.findSome?_cons]
    cases h : look d with
    | none => rw [List.find?_cons_of_neg (by simp [h]), ← ih]
    | some r => rw [List.find?_cons_of_pos (by simp [h]), Option.bind_some, h]

variable [DecidableEq α] {look look' : α → Option β} {e : α}

/-- A place where nothing is found can be left out. -/
theorem findSome?_filter_ne (he : look e = none) (ds : List α) :
    (ds.filter (· ≠ e)).findSome? look = ds.findSome? look := by
  have hlook : (fun d => if decide (d ≠ e) = true then look d else none) = look := by
    funext d
    rcases eq_or_ne d e with rfl | hd
    · simp [he]
    · simp [hd]
  rw [← List.head?_filterMap, List.filterMap_filter, hlook, List.head?_filterMap]

/-- Without the place where they differ, both searches are the same. -/
theorem findSome?_filter_congr (h : ∀ d ≠ e, look d = look' d) (ds : List α) :
    (ds.filter (· ≠ e)).findSome? look = (ds.filter (· ≠ e)).findSome? look' := by
  have hlook : (ds.filter (· ≠ e)).filterMap look = (ds.filter (· ≠ e)).filterMap look' := by
    apply List.filterMap_congr
    intro d hd
    exact h d (by simpa using (List.mem_filter.mp hd).2)
  rw [← List.head?_filterMap, hlook, List.head?_filterMap]

/-- The place where two searches differ comes first. -/
theorem findSome?_cons_eq_iff (h : ∀ d ≠ e, look d = look' d) (ds : List α) :
    (e :: ds).findSome? look = (e :: ds).findSome? look' ↔
      look e = look' e ∨ (look e = none ∨ look' e = none) ∧
        (ds.filter (· ≠ e)).findSome? look = (look e).or (look' e) := by
  rw [List.findSome?_cons, List.findSome?_cons]
  rcases hl : look e with _ | r <;> rcases hl' : look' e with _ | r'
  · -- neither finds anything there, and both searches are the same
    have hlook : look = look' := by
      funext d
      rcases eq_or_ne d e with rfl | hd
      · rw [hl, hl']
      · exact h d hd
    simp [hlook]
  · rw [findSome?_filter_ne hl]
    simp
  · rw [findSome?_filter_congr h, findSome?_filter_ne hl']
    simp [eq_comm]
  · simp

/-- **When two searches that differ in one place agree**: they do not come to it, or find the same
there, or one finds nothing there and then what the other has found. -/
theorem findSome?_eq_findSome?_iff (h : ∀ d ≠ e, look d = look' d) (ds : List α) :
    ds.findSome? look = ds.findSome? look' ↔
      e ∉ ds ∨ (∃ d ∈ ds.takeWhile (· ≠ e), look d ≠ none) ∨
        look e = look' e ∨ (look e = none ∨ look' e = none) ∧
          (ds.filter (· ≠ e)).findSome? look = (look e).or (look' e) := by
  induction ds with
  | nil => simp
  | cons d ds ih =>
    rcases eq_or_ne d e with rfl | hd
    · rw [findSome?_cons_eq_iff h]
      simp
    · rw [List.findSome?_cons, List.findSome?_cons, ← h d hd,
        List.takeWhile_cons_of_pos (by simpa using hd), List.filter_cons_of_pos (by simpa using hd),
        List.findSome?_cons]
      cases hlook : look d with
      | none => simpa [hlook, hd.symm] using ih
      | some r => simp [hlook]

end FindSome

/-! ## Regular files -/

/-- The regular file that `s` resolves to, symbolic links followed. -/
def regularFile (env : Env) (fs : FileSystem) (s : List Char) : Option Loc :=
  match stat env fs s with
  | .ok (l, .regular) => some l
  | _ => none

variable {env : Env} {fs : FileSystem}

@[simp] theorem regularFile_nil : regularFile env fs [] = none := by
  simp [regularFile, stat]

/-- Two pathnames that are read alike name the same. -/
theorem stat_congr {s t : List Char} (hs : s ≠ []) (ht : t ≠ [])
    (h : Pathname.parse s = Pathname.parse t) : stat env fs s = stat env fs t := by
  rw [stat, stat, if_neg hs, if_neg ht, Env.start, Env.start, h]

/-- A second slash makes no difference. -/
theorem stat_slash_slash (d : List Char) {f : List Char} (hf : f ≠ []) :
    stat env fs (d ++ '/' :: '/' :: f) = stat env fs (d ++ '/' :: f) := by
  apply stat_congr (by simp) (by simp)
  have hslash : (d ++ '/' :: '/' :: f).getLast? = (d ++ '/' :: f).getLast? := by
    simp [List.getLast?_append, List.getLast?_cons_of_ne_nil, hf]
  have hhead : (d ++ '/' :: '/' :: f).head? = (d ++ '/' :: f).head? := by
    cases d <;> rfl
  rw [Pathname.parse, Pathname.parse, hslash, hhead, names_append_slash, names_append_slash,
    names_slash_cons]

end Posix
