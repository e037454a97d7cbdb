import Mathlib.Data.List.DropRight
import RcppUtils.Path.Coherent

/-!
# The extension

`extension()` splits the whole string at dots and takes the last token. It does not see where the
last component begins, the token behind a final dot is dropped, and the empty string has no token
at all.

## Main definitions

* `lastExtension c`: what a component has from its last dot on
* `ExtensionOfLast os s`: the extension is defined, and that of the last component
* `DotInLast d t`: where the last dot of a string has to stand

## Main results

* `extension_of_dot`, `extension_of_last_dot`: the extension by what stands behind the last dot
* `extensionOfLast_iff`: when the extension is that of the last component
-/

namespace RcppUtils

/-! ## The last token -/

/-- The last token of a string, of which the end without delimiters is known. -/
theorem getLast?_tokens_append {d : Char} (u : StdString) {w : StdString} (hw : w ≠ [])
    (hd : d ∉ w) : ∃ x, (tokens d (u ++ w)).getLast? = some (x ++ w) := by
  by_cases hu : d ∈ u
  · obtain ⟨u, x, rfl, hx⟩ := exists_eq_append_last hu
    refine ⟨x, ?_⟩
    rw [List.append_assoc, List.cons_append, tokens_append_cons,
      tokens_of_notMem (by simp [hx, hd]) (by simp [hw]), List.getLast?_concat]
  · refine ⟨u, ?_⟩
    rw [tokens_of_notMem (by simp [hu, hd]) (by simp [hw])]
    rfl

namespace Path

/-- What a component has from its last dot on. -/
def lastExtension (c : StdString) : StdString :=
  if '.' ∈ c then '.' :: c.rtakeWhile (· ≠ '.') else []

theorem lastExtension_append (u : StdString) {v : StdString} (h : '.' ∉ v) :
    lastExtension (u ++ '.' :: v) = '.' :: v := by
  have hv : ∀ c ∈ v.reverse, decide (c ≠ '.') = true := by
    intro c hc
    simpa using ne_of_mem_of_not_mem (List.mem_reverse.mp hc) h
  rw [lastExtension, if_pos (by simp), List.rtakeWhile, List.reverse_append, List.reverse_cons,
    List.append_assoc, List.takeWhile_append_of_pos hv]
  simp

/-- What stands around the last dot is determined. -/
theorem append_dot_inj {u u' v v' : StdString} (h : u ++ '.' :: v = u' ++ '.' :: v')
    (hv : '.' ∉ v) (hv' : '.' ∉ v') : u = u' ∧ v = v' := by
  have he := congrArg lastExtension h
  rw [lastExtension_append u hv, lastExtension_append u' hv'] at he
  obtain rfl := (List.cons.inj he).2
  exact ⟨List.append_cancel_right h, rfl⟩

/-! ## The constructor on parts of a path -/

variable (os : Platform)

/-- A string that has the separator of the platform only. -/
def Native (s : StdString) : Prop :=
  ∀ c ∈ s, c = '\\' ∨ c = '/' → c = kPreferredSeparator os

variable {os}

theorem native_ofString (s : StdString) : Native os (ofString os s).path := by
  intro c hc hsep
  simp only [ofString, stdReplace, List.mem_map] at hc
  obtain ⟨b, ⟨a, -, rfl⟩, rfl⟩ := hc
  cases os <;> simp only [kPreferredSeparator] at hsep ⊢ <;> split_ifs at hsep ⊢ <;> simp_all

theorem Native.ofString_path {s : StdString} (h : Native os s) : (ofString os s).path = s := by
  simp only [ofString, stdReplace, List.map_map]
  refine (List.map_congr_left ?_).trans (List.map_id s)
  intro c hc
  have := h c hc
  cases os <;> by_cases h₁ : c = '\\' <;> by_cases h₂ : c = '/' <;>
    simp_all [kPreferredSeparator]

theorem Native.mono {s t : StdString} (h : Native os t) (hs : ∀ c ∈ s, c ∈ t) : Native os s :=
  fun c hc => h c (hs c hc)

theorem Native.dot_cons {v : StdString} (h : Native os v) : Native os ('.' :: v) := by
  intro c hc hsep
  rcases List.mem_cons.mp hc with rfl | hc
  · simp at hsep
  · exact h c hc hsep

/-! ## The extension by what stands behind the last dot -/

theorem extension_of_nil {p : Path} (h : p.path = []) : p.extension os = none := by
  simp [extension, h, split_eq_tokens]

theorem extension_of_notMem {p : Path} (hne : p.path ≠ []) (h : '.' ∉ p.path) :
    p.extension os = some (ofString os []) := by
  simp [extension, split_eq_tokens, tokens_of_notMem h hne]

/-- Characters behind the last dot are the extension. -/
theorem extension_of_dot {p : Path} {u v : StdString} (hp : p.path = u ++ '.' :: v)
    (hv : '.' ∉ v) (hne : v ≠ []) : p.extension os = some (ofString os ('.' :: v)) := by
  have htok : split p.path '.' false = u.splitOn '.' ++ [v] := by
    rw [hp, split_eq_tokens, tokens_append_cons, tokens_of_notMem hv hne]
  simp [extension, htok]

/-- A final dot that is the only one is dropped. -/
theorem extension_of_only_dot {p : Path} {u : StdString} (hp : p.path = u ++ ['.'])
    (hu : '.' ∉ u) : p.extension os = some (ofString os []) := by
  have htok : split p.path '.' false = [u] := by
    rw [hp, split_eq_tokens, tokens_concat, List.splitOn_eq_singleton hu]
  simp [extension, htok]

/-- Behind a final dot, the extension begins at the dot before it. -/
theorem extension_of_last_dot {p : Path} {u v : StdString} (hp : p.path = u ++ '.' :: v ++ ['.'])
    (hv : '.' ∉ v) : p.extension os = some (ofString os ('.' :: v)) := by
  have htok : split p.path '.' false = u.splitOn '.' ++ [v] := by
    rw [hp, split_eq_tokens, tokens_concat, List.splitOn_append_cons_self,
      List.splitOn_eq_singleton hv]
  simp [extension, htok]

/-! ## The extension of the last component -/

/-- The extension of the path built from `s` is defined, it is what the last component has from
its last dot on, and it has no separator. -/
def ExtensionOfLast (os : Platform) (s : StdString) : Prop :=
  ∃ q, (ofString os s).extension os = some q ∧
    q.path = lastExtension ((ofString os s).pathAsVector.getLast?.getD []) ∧
    kPreferredSeparator os ∉ q.path

/-- The string is not empty, no separator `d` stands behind its last dot, and if nothing at all
stands there, another dot stands in front of it. -/
def DotInLast (d : Char) (t : StdString) : Prop :=
  t ≠ [] ∧ ∀ u v, t = u ++ '.' :: v → '.' ∉ v → d ∉ v ∧ (v = [] → u.getLast? = some '.')

theorem dotInLast_append_iff {d : Char} {u v : StdString} (hv : '.' ∉ v) :
    DotInLast d (u ++ '.' :: v) ↔ d ∉ v ∧ (v = [] → u.getLast? = some '.') := by
  constructor
  · intro h
    exact h.2 u v rfl hv
  · intro h
    refine ⟨by simp, ?_⟩
    intro u' v' he hv'
    obtain ⟨rfl, rfl⟩ := append_dot_inj he hv hv'
    exact h

theorem kPreferredSeparator_ne_dot (os : Platform) : kPreferredSeparator os ≠ '.' := by
  cases os <;> decide

/-- The last component of a string without separators behind its last dot. -/
theorem lastExtension_getLast? {d : Char} (hd : d ≠ '.') (u : StdString) {v : StdString}
    (hv : '.' ∉ v) (hdv : d ∉ v) :
    lastExtension ((tokens d (u ++ '.' :: v)).getLast?.getD []) = '.' :: v := by
  have hw : d ∉ '.' :: v := by simp [hd, hdv]
  obtain ⟨x, hx⟩ := getLast?_tokens_append u (List.cons_ne_nil '.' v) hw
  rw [hx, Option.getD_some, lastExtension_append x hv]

theorem lastExtension_of_notMem {d : Char} {t : StdString} (h : '.' ∉ t) :
    lastExtension ((tokens d t).getLast?.getD []) = [] := by
  apply if_neg
  intro hmem
  cases hlast : (tokens d t).getLast? with
  | none => simp [hlast] at hmem
  | some c =>
    rw [hlast, Option.getD_some] at hmem
    exact h (mem_of_mem_tokens (List.mem_of_getLast? hlast) hmem)

variable {s : StdString}

/-- With the extension known, it is that of the last component exactly when their strings
agree. -/
theorem extensionOfLast_iff_of_eq {t : StdString}
    (h : (ofString os s).extension os = some (ofString os t)) (ht : (ofString os t).path = t) :
    ExtensionOfLast os s ↔
      t = lastExtension ((tokens (kPreferredSeparator os) (ofString os s).path).getLast?.getD []) ∧
        kPreferredSeparator os ∉ t := by
  have hv : (ofString os s).pathAsVector =
      tokens (kPreferredSeparator os) (ofString os s).path := split_eq_tokens _ _
  simp [ExtensionOfLast, h, ht, hv]

/-- With characters behind the last dot, only a separator among them goes wrong. -/
theorem extensionOfLast_iff_of_ne_nil {u v : StdString} (hp : (ofString os s).path = u ++ '.' :: v)
    (hv : '.' ∉ v) (hne : v ≠ []) : ExtensionOfLast os s ↔ kPreferredSeparator os ∉ v := by
  have hnat : Native os v := (native_ofString s).mono fun c hc => by simp [hp, hc]
  rw [extensionOfLast_iff_of_eq (extension_of_dot hp hv hne) hnat.dot_cons.ofString_path, hp]
  constructor
  · intro h hmem
    exact h.2 (List.mem_cons_of_mem _ hmem)
  · intro h
    refine ⟨(lastExtension_getLast? (kPreferredSeparator_ne_dot os) u hv h).symm, ?_⟩
    simp [kPreferredSeparator_ne_dot os, h]

/-- A final dot goes wrong unless another one stands in front of it. -/
theorem extensionOfLast_iff_of_last_dot {u : StdString} (hp : (ofString os s).path = u ++ ['.']) :
    ExtensionOfLast os s ↔ u.getLast? = some '.' := by
  have hlast := lastExtension_getLast? (kPreferredSeparator_ne_dot os) u (v := [])
    List.not_mem_nil List.not_mem_nil
  by_cases hu : '.' ∈ u
  · obtain ⟨u, w, rfl, hw⟩ := exists_eq_append_last hu
    have hnat : Native os w := (native_ofString s).mono fun c hc => by simp [hp, hc]
    rw [extensionOfLast_iff_of_eq (extension_of_last_dot hp hw) hnat.dot_cons.ofString_path, hp,
      hlast]
    rcases eq_or_ne w [] with rfl | hne
    · exact iff_of_true ⟨rfl, by simp [kPreferredSeparator_ne_dot os]⟩ (by simp)
    · refine iff_of_false (fun h => hne (List.cons.inj h.1).2) ?_
      rw [List.getLast?_append_of_ne_nil _ (List.cons_ne_nil _ _),
        List.getLast?_cons_of_ne_nil hne]
      exact fun h => hw (List.mem_of_getLast? h)
  · -- the token behind the only dot is dropped, and nothing is left of the extension
    rw [extensionOfLast_iff_of_eq (extension_of_only_dot hp hu) (by cases os <;> rfl), hp, hlast]
    exact iff_of_false (by simp) fun h => hu (List.mem_of_getLast? h)

/-- **The extension is that of the last component exactly when** the path is not empty, and its
last dot, if it has one, stands in the last component and is not the only dot at its end. -/
theorem extensionOfLast_iff (os : Platform) (s : StdString) :
    ExtensionOfLast os s ↔ DotInLast (kPreferredSeparator os) (ofString os s).path := by
  by_cases hnil : (ofString os s).path = []
  · -- `back()` of an empty vector
    refine iff_of_false ?_ fun h => h.1 hnil
    rintro ⟨q, hq, -⟩
    simp [extension_of_nil hnil] at hq
  by_cases hdot : '.' ∈ (ofString os s).path
  · obtain ⟨u, v, hp, hv⟩ := exists_eq_append_last hdot
    rw [hp, dotInLast_append_iff hv]
    rcases eq_or_ne v [] with rfl | hne
    · rw [extensionOfLast_iff_of_last_dot hp]
      simp
    · rw [extensionOfLast_iff_of_ne_nil hp hv hne]
      simp [hne]
  · rw [extensionOfLast_iff_of_eq (extension_of_notMem hnil hdot) (by cases os <;> rfl),
      lastExtension_of_notMem hdot]
    refine iff_of_true ⟨rfl, by simp⟩ ⟨hnil, ?_⟩
    rintro u v hp -
    simp [hp] at hdot

/-- The empty path has no extension at all, the one of `a.b/c` begins in the directory, and the
final dot of `foo.` is lost. -/
theorem not_extensionOfLast :
    ¬ ExtensionOfLast .posix [] ∧ ¬ ExtensionOfLast .posix "a.b/c".toList ∧
      ¬ ExtensionOfLast .posix "foo.".toList := by
  refine ⟨?_, ?_, ?_⟩ <;> rintro ⟨q, hq, he, -⟩
  · rw [extension_of_nil rfl] at hq
    cases hq
  · obtain rfl : ofString .posix ".b/c".toList = q := Option.some_inj.mp hq
    revert he
    decide
  · obtain rfl : ofString .posix [] = q := Option.some_inj.mp hq
    revert he
    decide

end Path

end RcppUtils
