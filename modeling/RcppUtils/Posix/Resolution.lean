import RcppUtils.Posix.FileSystem

/-!
# Pathname resolution

A walk goes from a directory along the steps of a pathname. It replaces a symbolic link by its
target, and it carries the number of links it may still follow, so that it ends on a cycle of
links too.

## Main definitions

* `Errno`: the errors of the system calls
* `walk fs b cur steps`: the location the steps lead to, and the links left of `b`
* `Hop`: one step of a walk

## Main results

* `walk_append`: a walk is composed of its parts
* `walk_of_le`: a walk succeeds in every file system with more nodes
* `walk_erase`: a walk does not depend on a regular file it does not lead to
* `kind_of_walk`: a walk leads to a node
-/

namespace Posix

/-- The errors of the system calls. -/
inductive Errno
  | enoent | enotdir | eexist | eloop | einval | ebusy | enotempty
  deriving DecidableEq

section Walk

variable (fs : FileSystem)

/-- The steps of a walk that calls `follow` at a symbolic link. -/
def walkWith (b : ℕ) (follow : Loc → List Char → List Name → Except Errno (Loc × ℕ)) :
    Loc → List Name → Except Errno (Loc × ℕ)
  | cur, [] => .ok (cur, b)
  | cur, n :: rest =>
    match fs.kind cur with
    | some .directory =>
      if n = dot then walkWith b follow cur rest
      else if n = dotdot then walkWith b follow cur.dropLast rest
      else
        match fs.kind (cur ++ [n]) with
        | none => .error .enoent
        | some (.symlink target) => follow cur target rest
        | some _ => walkWith b follow (cur ++ [n]) rest
    | some _ => .error .enotdir
    | none => .error .enoent

/-- The location that the steps lead to from `cur`, following at most `b` symbolic links, and
the number of links that may still be followed. -/
def walk : ℕ → Loc → List Name → Except Errno (Loc × ℕ)
  | 0 => walkWith fs 0 fun _ _ _ => .error .eloop
  | b + 1 => walkWith fs (b + 1) fun cur target rest =>
    if target = [] then .error .enoent
    else
      walk b (if (Pathname.parse target).absolute then [] else cur)
        ((Pathname.parse target).steps ++ rest)

variable {fs}

@[simp] theorem walk_nil (b : ℕ) (cur : Loc) : walk fs b cur [] = .ok (cur, b) := by
  cases b <;> rfl

/-! ## One step of a walk -/

variable (fs) in
/-- The step `n` leads from `cur` to `cur'`, with the steps `pre` of a link's target still to
go. -/
inductive Hop : ℕ → Loc → Name → ℕ → Loc → List Name → Prop
  | dot {b cur} (hcur : fs.kind cur = some .directory) : Hop b cur dot b cur []
  | dotdot {b cur} (hcur : fs.kind cur = some .directory) : Hop b cur dotdot b cur.dropLast []
  | node {b cur n k} (hcur : fs.kind cur = some .directory) (hd : n ≠ Posix.dot)
      (hdd : n ≠ Posix.dotdot) (hn : fs.kind (cur ++ [n]) = some k)
      (hk : ∀ target, k ≠ .symlink target) : Hop b cur n b (cur ++ [n]) []
  | link {b cur n target} (hcur : fs.kind cur = some .directory) (hd : n ≠ Posix.dot)
      (hdd : n ≠ Posix.dotdot) (hn : fs.kind (cur ++ [n]) = some (.symlink target))
      (ht : target ≠ []) :
      Hop (b + 1) cur n b (if (Pathname.parse target).absolute then [] else cur)
        (Pathname.parse target).steps

theorem walk_of_hop {b b' : ℕ} {cur cur' : Loc} {n : Name} {pre : List Name}
    (h : Hop fs b cur n b' cur' pre) (rest : List Name) :
    walk fs b cur (n :: rest) = walk fs b' cur' (pre ++ rest) := by
  cases h with
  | dot hcur => cases b <;> simp [walk, walkWith, hcur]
  | dotdot hcur => cases b <;> simp [walk, walkWith, hcur]
  | @node _ _ _ k hcur hd hdd hn hk =>
    cases k with
    | symlink target => exact absurd rfl (hk target)
    | directory => cases b <;> simp [walk, walkWith, hcur, hd, hdd, hn]
    | regular => cases b <;> simp [walk, walkWith, hcur, hd, hdd, hn]
  | link hcur hd hdd hn ht => simp [walk, walkWith, hcur, hd, hdd, hn, ht]

/-- A step that leads nowhere fails, whatever follows. -/
theorem hop_or_error (fs : FileSystem) (b : ℕ) (cur : Loc) (n : Name) :
    (∃ b' cur' pre, Hop fs b cur n b' cur' pre) ∨
      ∃ e, e ≠ .eexist ∧ ∀ rest, walk fs b cur (n :: rest) = .error e := by
  -- a step from a directory is looked up there, and one from elsewhere fails
  by_cases hcur : fs.kind cur = some .directory
  · by_cases hd : n = dot
    · subst hd
      exact .inl ⟨_, _, _, .dot hcur⟩
    by_cases hdd : n = dotdot
    · subst hdd
      exact .inl ⟨_, _, _, .dotdot hcur⟩
    rcases hn : fs.kind (cur ++ [n]) with _ | k
    · refine .inr ⟨.enoent, by decide, ?_⟩
      intro rest
      cases b <;> simp [walk, walkWith, hcur, hd, hdd, hn]
    · rcases k with _ | _ | target
      · exact .inl ⟨_, _, _, .node hcur hd hdd hn (by simp)⟩
      · exact .inl ⟨_, _, _, .node hcur hd hdd hn (by simp)⟩
      · cases b with
        | zero =>
          refine .inr ⟨.eloop, by decide, ?_⟩
          intro rest
          simp [walk, walkWith, hcur, hd, hdd, hn]
        | succ b =>
          by_cases ht : target = []
          · refine .inr ⟨.enoent, by decide, ?_⟩
            intro rest
            simp [walk, walkWith, hcur, hd, hdd, hn, ht]
          · exact .inl ⟨_, _, _, .link hcur hd hdd hn ht⟩
  · rcases hk : fs.kind cur with _ | k
    · refine .inr ⟨.enoent, by decide, ?_⟩
      intro rest
      cases b <;> simp [walk, walkWith, hk]
    · have hk' : k ≠ .directory := fun e => hcur (e ▸ hk)
      refine .inr ⟨.enotdir, by decide, ?_⟩
      intro rest
      cases b <;> cases k <;> simp_all [walk, walkWith]

theorem Hop.of_walk {b : ℕ} {cur : Loc} {n : Name} {rest : List Name} {r : Loc × ℕ}
    (h : walk fs b cur (n :: rest) = .ok r) :
    ∃ b' cur' pre, Hop fs b cur n b' cur' pre ∧ walk fs b' cur' (pre ++ rest) = .ok r := by
  rcases hop_or_error fs b cur n with ⟨b', cur', pre, hop⟩ | ⟨e, -, he⟩
  · exact ⟨b', cur', pre, hop, walk_of_hop hop rest ▸ h⟩
  · simp [he] at h

/-- Induction along a walk: over the links that may still be followed, and the steps. -/
theorem walk_induction (fs : FileSystem) {P : ℕ → Loc → List Name → Prop}
    (nil : ∀ b cur, P b cur [])
    (cons : ∀ b cur n rest, (∀ b' cur' pre, Hop fs b cur n b' cur' pre → P b' cur' (pre ++ rest)) →
      P b cur (n :: rest)) (b : ℕ) (cur : Loc) (steps : List Name) : P b cur steps := by
  induction b generalizing cur steps with
  | zero =>
    induction steps generalizing cur with
    | nil => exact nil 0 cur
    | cons n rest ih =>
      apply cons 0 cur n rest
      intro b' cur' pre hop
      -- without a link to follow, only the steps get fewer
      cases hop <;> exact ih _
  | succ b ihb =>
    induction steps generalizing cur with
    | nil => exact nil _ cur
    | cons n rest ih =>
      apply cons _ cur n rest
      intro b' cur' pre hop
      cases hop with
      -- a link adds steps, but leaves fewer links to follow
      | link => exact ihb _ _
      | _ => exact ih _

/-! ## Whole walks -/

/-- **A walk is composed of its parts.** -/
theorem walk_append (fs : FileSystem) (b : ℕ) (cur : Loc) (xs ys : List Name) :
    walk fs b cur (xs ++ ys) = (walk fs b cur xs).bind fun r => walk fs r.2 r.1 ys := by
  induction b, cur, xs using walk_induction fs with
  | nil b cur => simp [Except.bind]
  | cons b cur n rest ih =>
    rcases hop_or_error fs b cur n with ⟨b', cur', pre, hop⟩ | ⟨e, -, he⟩
    · have := ih b' cur' pre hop
      rwa [List.cons_append, walk_of_hop hop, walk_of_hop hop, ← List.append_assoc]
    · simp [he, Except.bind]

theorem walk_append_of_ok {b : ℕ} {cur : Loc} {xs : List Name} {r : Loc × ℕ}
    (h : walk fs b cur xs = .ok r) (ys : List Name) :
    walk fs b cur (xs ++ ys) = walk fs r.2 r.1 ys := by
  rw [walk_append, h, Except.bind]

theorem walk_append_of_error {b : ℕ} {cur : Loc} {xs : List Name} {e : Errno}
    (h : walk fs b cur xs = .error e) (ys : List Name) :
    walk fs b cur (xs ++ ys) = .error e := by
  rw [walk_append, h, Except.bind]

theorem exists_walk_of_append {b : ℕ} {cur : Loc} {xs ys : List Name} {r : Loc × ℕ}
    (h : walk fs b cur (xs ++ ys) = .ok r) :
    ∃ q, walk fs b cur xs = .ok q ∧ walk fs q.2 q.1 ys = .ok r := by
  cases hq : walk fs b cur xs with
  | ok q => exact ⟨q, rfl, walk_append_of_ok hq ys ▸ h⟩
  | error e => simp [walk_append_of_error hq] at h

/-- Resolution never reports that an entry exists. -/
theorem walk_ne_eexist (b : ℕ) (cur : Loc) (steps : List Name) :
    walk fs b cur steps ≠ .error .eexist := by
  induction b, cur, steps using walk_induction fs with
  | nil b cur => simp
  | cons b cur n rest ih =>
    rcases hop_or_error fs b cur n with ⟨b', cur', pre, hop⟩ | ⟨e, hne, he⟩
    · exact walk_of_hop hop rest ▸ ih b' cur' pre hop
    · simpa [he] using hne

theorem Hop.of_le {fs' : FileSystem} (hle : fs ≤ fs') {b b' : ℕ} {cur cur' : Loc} {n : Name}
    {pre : List Name} (h : Hop fs b cur n b' cur' pre) : Hop fs' b cur n b' cur' pre := by
  cases h with
  | dot hcur => exact .dot (hle _ _ hcur)
  | dotdot hcur => exact .dotdot (hle _ _ hcur)
  | node hcur hd hdd hn hk => exact .node (hle _ _ hcur) hd hdd (hle _ _ hn) hk
  | link hcur hd hdd hn ht => exact .link (hle _ _ hcur) hd hdd (hle _ _ hn) ht

/-- A walk succeeds in every file system with more nodes, with the same result. -/
theorem walk_of_le {fs' : FileSystem} (hle : fs ≤ fs') {b : ℕ} {cur : Loc} {steps : List Name}
    {r : Loc × ℕ} (h : walk fs b cur steps = .ok r) : walk fs' b cur steps = .ok r := by
  induction b, cur, steps using walk_induction fs with
  | nil b cur => simpa using h
  | cons b cur n rest ih =>
    obtain ⟨b', cur', pre, hop, hrest⟩ := Hop.of_walk h
    rw [walk_of_hop (hop.of_le hle)]
    exact ih b' cur' pre hop hrest

/-- A step leads to a node, or to a link's target. -/
theorem Hop.kind_ne_none {b b' : ℕ} {cur cur' : Loc} {n : Name} {pre : List Name}
    (h : Hop fs b cur n b' cur' pre) : fs.kind cur' ≠ none := by
  cases h with
  | dot hcur => simp [hcur]
  | dotdot hcur =>
    have hne : fs.kind cur ≠ none := by simp [hcur]
    simp [FileSystem.kind_dropLast hne]
  | node hcur hd hdd hn hk => simp [hn]
  | link hcur hd hdd hn ht => split_ifs <;> simp [hcur]

/-- A walk leads to a node. -/
theorem kind_of_walk {b : ℕ} {cur : Loc} {steps : List Name} {r : Loc × ℕ}
    (hcur : fs.kind cur ≠ none) (h : walk fs b cur steps = .ok r) : fs.kind r.1 ≠ none := by
  induction b, cur, steps using walk_induction fs with
  | nil b cur =>
    obtain rfl : (cur, b) = r := by simpa using h
    exact hcur
  | cons b cur n rest ih =>
    obtain ⟨b', cur', pre, hop, hrest⟩ := Hop.of_walk h
    exact ih b' cur' pre hop hop.kind_ne_none hrest

/-- A walk of at least one step leads to a node, wherever it starts. -/
theorem kind_of_walk_cons {b : ℕ} {cur : Loc} {n : Name} {rest : List Name} {r : Loc × ℕ}
    (h : walk fs b cur (n :: rest) = .ok r) : fs.kind r.1 ≠ none := by
  obtain ⟨b', cur', pre, hop, hrest⟩ := Hop.of_walk h
  exact kind_of_walk hop.kind_ne_none hrest

theorem Hop.le {b b' : ℕ} {cur cur' : Loc} {n : Name} {pre : List Name}
    (h : Hop fs b cur n b' cur' pre) : b' ≤ b := by
  cases h with
  | link => exact Nat.le_succ _
  | _ => exact le_rfl

/-- A walk only uses links up. -/
theorem le_of_walk {b : ℕ} {cur : Loc} {steps : List Name} {r : Loc × ℕ}
    (h : walk fs b cur steps = .ok r) : r.2 ≤ b := by
  induction b, cur, steps using walk_induction fs with
  | nil b cur =>
    obtain rfl : (cur, b) = r := by simpa using h
    exact le_rfl
  | cons b cur n rest ih =>
    obtain ⟨b', cur', pre, hop, hrest⟩ := Hop.of_walk h
    exact (ih b' cur' pre hop hrest).trans hop.le

/-- The name of an entry leads to the entry, or uses a link up. -/
theorem walk_singleton {b b' : ℕ} {d d' : Loc} {n : Name} (hd : n ≠ dot) (hdd : n ≠ dotdot)
    (h : walk fs b d [n] = .ok (d', b')) : d' = d ++ [n] ∧ b' = b ∨ b' < b := by
  obtain ⟨b₁, cur, pre, hop, hrest⟩ := Hop.of_walk h
  cases hop with
  | dot => exact absurd rfl hd
  | dotdot => exact absurd rfl hdd
  | node =>
    left
    obtain ⟨rfl, rfl⟩ : d ++ [n] = d' ∧ b = b' := by simpa using hrest
    exact ⟨rfl, rfl⟩
  | link =>
    right
    exact Nat.lt_succ_of_le (le_of_walk hrest)

theorem Hop.isName {b b' : ℕ} {cur cur' : Loc} {n : Name} {pre : List Name}
    (h : Hop fs b cur n b' cur' pre) : n = Posix.dot ∨ n = Posix.dotdot ∨ IsName n := by
  have isName : fs.kind (cur ++ [n]) ≠ none → IsName n := FileSystem.isName_of_kind_concat
  cases h with
  | dot hcur => exact .inl rfl
  | dotdot hcur => exact .inr (.inl rfl)
  | node hcur hd hdd hn hk => exact .inr (.inr (isName (by simp [hn])))
  | link hcur hd hdd hn ht => exact .inr (.inr (isName (by simp [hn])))

/-- A walk goes through names of entries, `.` and `..` only. -/
theorem isName_of_walk {b : ℕ} {cur : Loc} {steps : List Name} {r : Loc × ℕ}
    (h : walk fs b cur steps = .ok r) :
    ∀ n ∈ steps, n = dot ∨ n = dotdot ∨ IsName n := by
  induction steps generalizing b cur with
  | nil => simp
  | cons n rest ih =>
    rw [← List.singleton_append] at h
    obtain ⟨q, hq, hrest⟩ := exists_walk_of_append h
    obtain ⟨b', cur', pre, hop, -⟩ := Hop.of_walk hq
    exact List.forall_mem_cons.mpr ⟨hop.isName, ih hrest⟩

/-- A walk that ends at a directory may go on to `.`. -/
theorem walk_concat_dot {b : ℕ} {cur : Loc} {steps : List Name} {r : Loc × ℕ} :
    walk fs b cur (steps ++ [dot]) = .ok r ↔
      walk fs b cur steps = .ok r ∧ fs.kind r.1 = some .directory := by
  constructor
  · intro h
    obtain ⟨⟨l, b'⟩, hq, hdot⟩ := exists_walk_of_append h
    obtain ⟨_, _, pre, hop, hrest⟩ := Hop.of_walk hdot
    cases hop with
    | dot hcur =>
      obtain rfl : (l, b') = r := by simpa using hrest
      exact ⟨hq, hcur⟩
    | node hcur hd => exact absurd rfl hd
    | link hcur hd => exact absurd rfl hd
  · rintro ⟨h, hr⟩
    rw [walk_append_of_ok h, walk_of_hop (.dot hr)]
    simp

/-- **A walk does not depend on a regular file** that it does not lead to. -/
theorem walk_erase {l : Loc} (hl : fs.kind l = some .regular) {b : ℕ} {cur : Loc}
    {steps : List Name} {r : Loc × ℕ} (h : walk fs b cur steps = .ok r) (hr : r.1 ≠ l) :
    walk (fs.erase l) b cur steps = .ok r := by
  have hc : fs.children l = [] := FileSystem.children_eq_nil (by simp [hl])
  have hl0 : l ≠ [] := fun e => by simp [e] at hl
  have keep : ∀ k q, fs.kind k = some q → k ≠ l → (fs.erase l).kind k = some q :=
    fun k q hk hne => by rw [FileSystem.kind_erase hl0 hc, if_neg hne, hk]
  have keepDir : ∀ k, fs.kind k = some .directory → (fs.erase l).kind k = some .directory :=
    fun k hk => keep k _ hk fun e => by simp [e, hl] at hk
  induction b, cur, steps using walk_induction fs with
  | nil b cur => simpa using h
  | cons b cur n rest ih =>
    obtain ⟨b', cur', pre, hop, hrest⟩ := Hop.of_walk h
    have hop' : Hop (fs.erase l) b cur n b' cur' pre := by
      cases hop with
      | dot hcur => exact .dot (keepDir _ hcur)
      | dotdot hcur => exact .dotdot (keepDir _ hcur)
      | link hcur hd hdd hn ht =>
        exact .link (keepDir _ hcur) hd hdd (keep _ _ hn fun e => by simp [e, hl] at hn) ht
      | node hcur hd hdd hn hk =>
        refine .node (keepDir _ hcur) hd hdd (keep _ _ hn ?_) hk
        intro e
        -- a walk that goes on from a regular file fails, so it would end at `l`
        cases rest with
        | nil =>
          obtain rfl : (cur ++ [n], b) = r := by simpa using hrest
          exact hr e
        | cons m rest =>
          obtain ⟨_, _, _, hop', -⟩ := Hop.of_walk hrest
          cases hop' <;> simp_all
    rw [walk_of_hop hop']
    exact ih b' cur' pre hop hrest

end Walk

end Posix
