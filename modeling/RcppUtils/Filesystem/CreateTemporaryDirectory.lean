import RcppUtils.Filesystem.StdFilesystem
import RcppUtils.Path.Append
import RcppUtils.Program.Basic
import RcppUtils.Program.Exception
import RcppUtils.Text.Hexadecimal

/-!
# `create_temporary_directory`

The function draws random values and tries the directory with each as a suffix, until one is
created. Between two tries nothing changes, so the tries before the one that succeeds met
directories that were there before the call. The count of the tries is compared with the maximum
after a try failed and before it is raised, so one try more than the maximum is made.

## Main definitions

* `createTemporaryDirectory`: the function on the POSIX build
* `candidate`: the path that is tried with the `i`-th random value
* `temporary`, `attempts`: the result and the tries of a call
* `IsFresh`, `WithinTries`: what is said of the result, and of the number of tries

## Main results

* `createTemporaryDirectory_isFresh`: the directory that is returned is a new one
* `withinTries_iff`: when at most the maximum number of tries is made
-/

namespace RcppUtils

open Posix Hexadecimal

/-- The calls of the function: a draw of the distribution, and a call of the library. -/
inductive TempCall
  | distribution
  | createDirectories (p : StdString)

/-- What each call returns: a value of the distribution, or a result of the library. -/
def TempCall.Reply : TempCall → Type
  | .distribution => Fin 0x1000000
  | .createDirectories _ => Except String Bool

/-- Programs that make these calls. -/
abbrev TempProgram := Program TempCall TempCall.Reply

/-- `kSuffixLength`: six characters and a null. -/
def kSuffixLength : ℕ := 7

/-- `random_suffix_str` after `snprintf` with `"%06x"`, which leaves room for the null. -/
def randomSuffixStr (value : Fin 0x1000000) : StdString :=
  (toHex 6 value).take (kSuffixLength - 1)

/-- One round of the loop; `next` is what follows when the directory existed. -/
def tryCreate (baseName parentPath : StdString)
    (next : TempProgram (Except StdException StdString)) :
    TempProgram (Except StdException StdString) :=
  .call .distribution fun value =>
    .call (.createDirectories (Path.stdAppend parentPath (baseName ++ randomSuffixStr value))) fun
      | .error what => .ret (.error (.systemError what))
      | .ok true => .ret (.ok (Path.stdAppend parentPath (baseName ++ randomSuffixStr value)))
      | .ok false => next

/-- The text of the exception for a base name with a separator. -/
def containsSeparator : String := "The base_name contain directory-separator"

/-- The text of the exception when no directory was found. -/
def exceededMaximum : String :=
  "Exceeded maximum allowed iterations to find non-existing directory"

/-- The loop with `max_tries - current_iteration` rounds left behind the next one; the test
`current_iteration == max_tries` is the one for zero. -/
def tryLoop (baseName parentPath : StdString) : ℕ → TempProgram (Except StdException StdString)
  | 0 => tryCreate baseName parentPath (.ret (.error (.runtimeError exceededMaximum)))
  | left + 1 => tryCreate baseName parentPath (tryLoop baseName parentPath left)

/-- `create_temporary_directory(base_name, parent_path, max_tries)`. -/
def createTemporaryDirectory (baseName parentPath : StdString) (maxTries : ℕ) :
    TempProgram (Except StdException StdString) :=
  if '/' ∈ baseName then
    .ret (.error (.invalidArgument containsSeparator))
  else tryLoop baseName parentPath maxTries

/-! ## Calls of the function -/

/-- The state of a call: how many values were drawn, and the file system. -/
structure TempWorld where
  drawn : ℕ
  fs : FileSystem

section Run

variable {env : Env} (lib : StdFilesystem env) (stream : ℕ → Fin 0x1000000)

/-- The meaning of the calls, for a stream of random values. -/
def tempHandler : Handler TempCall TempCall.Reply TempWorld
  | .distribution, w => (stream w.drawn, { w with drawn := w.drawn + 1 })
  | .createDirectories p, w =>
    ((lib.createDirectories p w.fs).1, { w with fs := (lib.createDirectories p w.fs).2 })

variable (baseName parentPath : StdString) (maxTries : ℕ) (fs : FileSystem)

/-- The path that is tried with the `i`-th value of the stream. -/
def candidate (i : ℕ) : StdString :=
  Path.stdAppend parentPath (baseName ++ randomSuffixStr (stream i))

/-- The result of a call, and the state after it. -/
def temporary : Except StdException StdString × TempWorld :=
  (createTemporaryDirectory baseName parentPath maxTries).run (tempHandler lib stream) ⟨0, fs⟩

/-- The path of a call that tries to create a directory. -/
def TempCall.attempt : TempCall × TempWorld → Option StdString
  | (.distribution, _) => none
  | (.createDirectories p, _) => some p

/-- The paths that a program tries to create, in order. -/
def tried (p : TempProgram (Except StdException StdString)) (w : TempWorld) : List StdString :=
  (p.calls (tempHandler lib stream) w).filterMap TempCall.attempt

/-- The paths that a call tries to create, in order. -/
def attempts : List StdString :=
  tried lib stream (createTemporaryDirectory baseName parentPath maxTries) ⟨0, fs⟩

end Run

section Loop

variable {env : Env} {lib : StdFilesystem env} {stream : ℕ → Fin 0x1000000}
  {baseName parentPath : StdString} {fs fs' : FileSystem}

/-! ## One round of the loop -/

variable (lib stream baseName parentPath fs) in
theorem run_tryCreate (next : TempProgram (Except StdException StdString)) (m : ℕ) :
    (tryCreate baseName parentPath next).run (tempHandler lib stream) ⟨m, fs⟩ =
      match lib.createDirectories (candidate stream baseName parentPath m) fs with
      | (.error what, fs') => (.error (.systemError what), ⟨m + 1, fs'⟩)
      | (.ok true, fs') => (.ok (candidate stream baseName parentPath m), ⟨m + 1, fs'⟩)
      | (.ok false, fs') => next.run (tempHandler lib stream) ⟨m + 1, fs'⟩ := by
  rw [tryCreate, Program.run_call, Program.run_call]
  rcases h : lib.createDirectories (candidate stream baseName parentPath m) fs with
    ⟨what | _ | _, fs'⟩ <;> simp only [tempHandler, candidate] at h ⊢ <;> rw [h] <;> rfl

variable (lib stream baseName parentPath fs) in
theorem tried_tryCreate (next : TempProgram (Except StdException StdString)) (m : ℕ) :
    tried lib stream (tryCreate baseName parentPath next) ⟨m, fs⟩ =
      candidate stream baseName parentPath m ::
        match lib.createDirectories (candidate stream baseName parentPath m) fs with
        | (.ok false, fs') => tried lib stream next ⟨m + 1, fs'⟩
        | _ => [] := by
  rw [tried, tryCreate, Program.calls_call, Program.calls_call]
  rcases h : lib.createDirectories (candidate stream baseName parentPath m) fs with
    ⟨what | _ | _, fs'⟩ <;> simp only [tempHandler, candidate] at h ⊢ <;> rw [h] <;> rfl

/-! ## How the loop ends -/

/-- How the tries of the paths `c` end, with `left` rounds left behind the first one: the result,
the file system, and the number of tries. The tries before the last one met directories. -/
inductive Ends (lib : StdFilesystem env) (fs : FileSystem) (c : ℕ → StdString) (left : ℕ) :
    Except StdException StdString → FileSystem → ℕ → Prop
  | created {i} (hi : i ≤ left) (hbefore : ∀ j < i, NamesDirectory env fs (cStr (c j)))
      (h : (lib.createDirectories (c i) fs).1 = .ok true) :
      Ends lib fs c left (.ok (c i)) (lib.createDirectories (c i) fs).2 (i + 1)
  | failed {i what} (hi : i ≤ left) (hbefore : ∀ j < i, NamesDirectory env fs (cStr (c j)))
      (h : (lib.createDirectories (c i) fs).1 = .error what) :
      Ends lib fs c left (.error (.systemError what)) (lib.createDirectories (c i) fs).2 (i + 1)
  | gaveUp (hall : ∀ j < left + 1, NamesDirectory env fs (cStr (c j))) :
      Ends lib fs c left (.error (.runtimeError exceededMaximum)) fs (left + 1)

theorem forall_lt_succ_of_zero {P : ℕ → Prop} {n : ℕ} (h0 : P 0) (h : ∀ j < n, P (j + 1)) :
    ∀ j < n + 1, P j := by
  intro j hj
  cases j with
  | zero => exact h0
  | succ j => exact h j (by omega)

/-- A try that met a directory comes before the others. -/
theorem Ends.cons {c : ℕ → StdString} {left n : ℕ} {r : Except StdException StdString}
    (h0 : NamesDirectory env fs (cStr (c 0)))
    (h : Ends lib fs (fun j => c (j + 1)) left r fs' n) :
    Ends lib fs c (left + 1) r fs' (n + 1) := by
  cases h with
  | created hi hbefore h =>
    exact .created (Nat.succ_le_succ hi) (forall_lt_succ_of_zero h0 hbefore) h
  | failed hi hbefore h =>
    exact .failed (Nat.succ_le_succ hi) (forall_lt_succ_of_zero h0 hbefore) h
  | gaveUp hall => exact .gaveUp (forall_lt_succ_of_zero h0 hall)

/-- A program ends as `Ends` says, from the `m`-th value on, and tries a path for each value that it
draws. -/
def EndsAt (lib : StdFilesystem env) (stream : ℕ → Fin 0x1000000) (c : ℕ → StdString)
    (fs : FileSystem) (left m : ℕ) (p : TempProgram (Except StdException StdString)) : Prop :=
  ∃ r fs' n, Ends lib fs (fun j => c (m + j)) left r fs' n ∧
    p.run (tempHandler lib stream) ⟨m, fs⟩ = (r, ⟨m + n, fs'⟩) ∧
    tried lib stream p ⟨m, fs⟩ = (List.range' m n).map c

variable (lib stream baseName parentPath fs) in
/-- A round ends the loop, unless it meets a directory. -/
theorem endsAt_tryCreate {left m : ℕ} {next : TempProgram (Except StdException StdString)}
    (hnext : NamesDirectory env fs (cStr (candidate stream baseName parentPath m)) →
      ∃ r fs' n,
        Ends lib fs (fun j => candidate stream baseName parentPath (m + j)) left r fs' (n + 1) ∧
        next.run (tempHandler lib stream) ⟨m + 1, fs⟩ = (r, ⟨m + 1 + n, fs'⟩) ∧
        tried lib stream next ⟨m + 1, fs⟩ =
          (List.range' (m + 1) n).map (candidate stream baseName parentPath)) :
    EndsAt lib stream (candidate stream baseName parentPath) fs left m
      (tryCreate baseName parentPath next) := by
  have hrun := run_tryCreate lib stream baseName parentPath fs next m
  have htried := tried_tryCreate lib stream baseName parentPath fs next m
  -- no try comes before the first one
  have hbefore : ∀ j < 0, NamesDirectory env fs
      (cStr (candidate stream baseName parentPath (m + j))) := by simp
  rcases h : lib.createDirectories (candidate stream baseName parentPath m) fs with
    ⟨what | _ | _, fs'⟩ <;> simp only [h] at hrun htried
  · refine ⟨_, _, 1, ?_, hrun, htried⟩
    have hend := Ends.failed (Nat.zero_le left) hbefore (congrArg Prod.fst h)
    rwa [Nat.add_zero, h] at hend
  · -- a directory: nothing has changed, and the next round follows
    have hdir := lib.of_false (congrArg Prod.fst h)
    obtain rfl : fs = fs' := congrArg Prod.snd ((lib.of_directory hdir).symm.trans h)
    obtain ⟨r, fs'', n, hend, hrun', htried'⟩ := hnext hdir
    refine ⟨r, fs'', n + 1, hend, hrun.trans (hrun'.trans ?_), htried.trans ?_⟩
    · rw [Nat.add_right_comm m 1 n]
      rfl
    · rw [htried', List.range'_succ, List.map_cons]
  · refine ⟨_, _, 1, ?_, hrun, htried⟩
    have hend := Ends.created (Nat.zero_le left) hbefore (congrArg Prod.fst h)
    rwa [Nat.add_zero, h] at hend

variable (lib stream baseName parentPath fs) in
/-- **How the loop ends**, and what it tries. -/
theorem endsAt_tryLoop (left m : ℕ) :
    EndsAt lib stream (candidate stream baseName parentPath) fs left m
      (tryLoop baseName parentPath left) := by
  induction left generalizing m with
  | zero =>
    apply endsAt_tryCreate
    intro hdir
    -- the last round has met a directory, and the loop gives up
    refine ⟨_, fs, 0, .gaveUp ?_, rfl, rfl⟩
    intro j hj
    obtain rfl : j = 0 := Nat.lt_one_iff.mp hj
    exact hdir
  | succ left ih =>
    apply endsAt_tryCreate
    intro hdir
    obtain ⟨r, fs', n, hend, hrun, htried⟩ := ih (m + 1)
    simp only [Nat.add_right_comm m 1] at hend
    exact ⟨r, fs', n, hend.cons hdir, hrun, htried⟩

/-! ## Calls of the function -/

variable {maxTries : ℕ}

variable (lib stream parentPath maxTries fs) in
theorem temporary_of_mem (h : '/' ∈ baseName) :
    temporary lib stream baseName parentPath maxTries fs =
      (.error (.invalidArgument containsSeparator), ⟨0, fs⟩) := by
  rw [temporary, createTemporaryDirectory, if_pos h, Program.run_ret]

variable (lib stream parentPath maxTries fs) in
/-- Without a separator in the base name, the call is the loop. -/
theorem exists_ends (h : '/' ∉ baseName) :
    ∃ r fs' n, Ends lib fs (candidate stream baseName parentPath) maxTries r fs' n ∧
      temporary lib stream baseName parentPath maxTries fs = (r, ⟨n, fs'⟩) ∧
      attempts lib stream baseName parentPath maxTries fs =
        (List.range n).map (candidate stream baseName parentPath) := by
  obtain ⟨r, fs', n, hend, hrun, htried⟩ :=
    endsAt_tryLoop lib stream baseName parentPath fs maxTries 0
  simp only [Nat.zero_add] at hend hrun
  refine ⟨r, fs', n, hend, ?_, ?_⟩
  · rw [temporary, createTemporaryDirectory, if_neg h, hrun]
  · rw [attempts, createTemporaryDirectory, if_neg h, htried, List.range_eq_range']

/-! ## The directory that is returned -/

/-- The suffix of a value: six lowercase hexadecimal digits that write the value. -/
structure IsSuffix (value : Fin 0x1000000) (suffix : StdString) : Prop where
  length_eq : suffix.length = 6
  mem_hexDigits : ∀ c ∈ suffix, c ∈ hexDigits
  hexValue_eq : hexValue suffix = value

theorem isSuffix_randomSuffixStr (value : Fin 0x1000000) :
    IsSuffix value (randomSuffixStr value) := by
  have hlen : (toHex 6 value).length = 6 := length_toHex (by decide) value.isLt
  -- the buffer has room for all digits
  have htake : randomSuffixStr value = toHex 6 value :=
    List.take_of_length_le hlen.le
  rw [htake]
  exact ⟨hlen, fun c hc => mem_toHex hc, hexValue_toHex 6 value⟩

/-- What is said of a call. When it returns a path, this is the parent joined with the base name
and the suffix of a value of the stream; the paths of the values before it were directories, and
the call has created the path and nothing else. When it gives up, nothing has changed. An error of
the library ends the call with what that one call has left, so nothing has changed either if calls
that throw change nothing. A base name with a separator ends it before any try. -/
structure IsFresh (lib : StdFilesystem env) (stream : ℕ → Fin 0x1000000)
    (baseName parentPath : StdString) (maxTries : ℕ) (fs : FileSystem) : Prop where
  returned : ∀ {p}, (temporary lib stream baseName parentPath maxTries fs).1 = .ok p →
    ∃ i suffix, IsSuffix (stream i) suffix ∧ p = Path.stdAppend parentPath (baseName ++ suffix) ∧
      attempts lib stream baseName parentPath maxTries fs =
        (List.range (i + 1)).map (candidate stream baseName parentPath) ∧
      (∀ j < i, NamesDirectory env fs (cStr (candidate stream baseName parentPath j))) ∧
      Created env fs (temporary lib stream baseName parentPath maxTries fs).2.fs (cStr p)
  gaveUp : ∀ {what}, (temporary lib stream baseName parentPath maxTries fs).1 =
    .error (.runtimeError what) → (temporary lib stream baseName parentPath maxTries fs).2.fs = fs
  failed : ∀ {what}, (temporary lib stream baseName parentPath maxTries fs).1 =
    .error (.systemError what) → ∃ i,
      lib.createDirectories (candidate stream baseName parentPath i) fs =
        (.error what, (temporary lib stream baseName parentPath maxTries fs).2.fs)
  unchanged : (∀ p what fs', lib.createDirectories p fs = (.error what, fs') → fs' = fs) →
    ∀ {e}, (temporary lib stream baseName parentPath maxTries fs).1 = .error e →
      (temporary lib stream baseName parentPath maxTries fs).2.fs = fs
  rejected : '/' ∈ baseName → temporary lib stream baseName parentPath maxTries fs =
    (.error (.invalidArgument containsSeparator), ⟨0, fs⟩)

/-- **The directory that `create_temporary_directory` returns is a new one.** -/
theorem createTemporaryDirectory_isFresh (lib : StdFilesystem env)
    (stream : ℕ → Fin 0x1000000) (baseName parentPath : StdString) (maxTries : ℕ)
    (fs : FileSystem) : IsFresh lib stream baseName parentPath maxTries fs := by
  -- a base name with a separator is rejected before the loop
  by_cases hbase : '/' ∈ baseName
  · have htemp := temporary_of_mem lib stream parentPath fs maxTries hbase
    constructor <;> simp [htemp]
  obtain ⟨r, fs', n, hend, htemp, hattempts⟩ :=
    exists_ends lib stream parentPath fs maxTries hbase
  refine ⟨?_, ?_, ?_, ?_, fun h => absurd h hbase⟩ <;> rw [htemp]
  · rintro p rfl
    cases hend with
    | @created i _ hbefore h =>
      exact ⟨i, _, isSuffix_randomSuffixStr (stream i), rfl, hattempts, hbefore, lib.of_true h⟩
  · rintro what rfl
    cases hend
    rfl
  · rintro what rfl
    cases hend with
    | @failed i _ _ _ h => exact ⟨i, Prod.ext h rfl⟩
  · rintro hlib e rfl
    cases hend with
    | @failed i what _ _ h => exact hlib _ what _ (Prod.ext h rfl)
    | gaveUp => rfl

/-- In the directory `d`, which is made as well. -/
theorem createTemporaryDirectory_isFresh_rootOnly :
    IsFresh (StdFilesystem.addMissing (Env.ofCwd [])) (fun _ => 0) "t".toList "d".toList 1
      .rootOnly :=
  createTemporaryDirectory_isFresh _ _ _ _ _ _

/-! ## The number of tries -/

/-- At most `maxTries` paths are tried: the first absent one of the first `maxTries` is returned,
and the call gives up exactly when all of these are directories. -/
structure WithinTries (lib : StdFilesystem env) (stream : ℕ → Fin 0x1000000)
    (baseName parentPath : StdString) (maxTries : ℕ) (fs : FileSystem) : Prop where
  length_le : (attempts lib stream baseName parentPath maxTries fs).length ≤ maxTries
  first_absent : ∀ i < maxTries, Absent env fs (cStr (candidate stream baseName parentPath i)) →
    (∀ j < i, NamesDirectory env fs (cStr (candidate stream baseName parentPath j))) →
    (temporary lib stream baseName parentPath maxTries fs).1 =
      .ok (candidate stream baseName parentPath i)
  gives_up_iff : (∃ what, (temporary lib stream baseName parentPath maxTries fs).1 =
      .error (.runtimeError what)) ↔
    ∀ i < maxTries, NamesDirectory env fs (cStr (candidate stream baseName parentPath i))

/-- When every path is absent or a directory, the loop returns the first absent one, or gives up
when there is none. -/
theorem Ends.of_absent_or_directory {c : ℕ → StdString} {left n : ℕ}
    {r : Except StdException StdString} (h : Ends lib fs c left r fs' n)
    (hc : ∀ i, Absent env fs (cStr (c i)) ∨ NamesDirectory env fs (cStr (c i))) :
    (∃ i ≤ left, r = .ok (c i) ∧ n = i + 1 ∧ Absent env fs (cStr (c i)) ∧
        ∀ j < i, NamesDirectory env fs (cStr (c j))) ∨
      (∃ what, r = .error (.runtimeError what)) ∧ n = left + 1 ∧
        ∀ j < left + 1, NamesDirectory env fs (cStr (c j)) := by
  cases h with
  | @created i hi hbefore h =>
    refine .inl ⟨i, hi, rfl, rfl, (hc i).resolve_right ?_, hbefore⟩
    intro hdir
    rw [lib.of_directory hdir] at h
    cases h
  | @failed i _ _ _ h =>
    -- the library throws neither for an absent path nor for a directory
    rcases hc i with habs | hdir
    · rw [lib.of_absent habs] at h
      cases h
    · rw [lib.of_directory hdir] at h
      cases h
  | gaveUp hall => exact .inr ⟨⟨_, rfl⟩, rfl, hall⟩

/-- The first absent path, if some path is not a directory. -/
theorem exists_first_absent {c : ℕ → StdString}
    (hc : ∀ i, Absent env fs (cStr (c i)) ∨ NamesDirectory env fs (cStr (c i))) {n : ℕ}
    (h : ¬ ∀ i < n, NamesDirectory env fs (cStr (c i))) :
    ∃ i < n, Absent env fs (cStr (c i)) ∧ ∀ j < i, NamesDirectory env fs (cStr (c j)) := by
  classical
  push Not at h
  have hex : ∃ i, ¬ NamesDirectory env fs (cStr (c i)) := h.imp fun _ => And.right
  obtain ⟨i, hi, hne⟩ := h
  refine ⟨Nat.find hex, (Nat.find_min' hex hne).trans_lt hi, ?_, ?_⟩
  · exact (hc _).resolve_right (Nat.find_spec hex)
  · intro j hj
    exact not_not.mp (Nat.find_min hex hj)

/-- There is one first absent path. -/
theorem eq_of_first_absent {c : ℕ → StdString} {i j : ℕ} (hi : Absent env fs (cStr (c i)))
    (hi' : ∀ k < i, NamesDirectory env fs (cStr (c k))) (hj : Absent env fs (cStr (c j)))
    (hj' : ∀ k < j, NamesDirectory env fs (cStr (c k))) : i = j := by
  -- each of them comes before no other
  rcases lt_trichotomy i j with hlt | heq | hgt
  · exact absurd (hj' i hlt) hi.not_namesDirectory
  · exact heq
  · exact absurd (hi' j hgt) hj.not_namesDirectory

/-- **At most the maximum number of tries is made exactly when** one of the paths that may be tried
is absent. Otherwise one more path is tried. -/
theorem withinTries_iff (lib : StdFilesystem env) {stream : ℕ → Fin 0x1000000}
    {baseName parentPath : StdString} {maxTries : ℕ} {fs : FileSystem}
    (h : ∀ i, Absent env fs (cStr (candidate stream baseName parentPath i)) ∨
      NamesDirectory env fs (cStr (candidate stream baseName parentPath i))) :
    WithinTries lib stream baseName parentPath maxTries fs ↔
      '/' ∉ baseName ∧
        ∃ i < maxTries, Absent env fs (cStr (candidate stream baseName parentPath i)) := by
  by_cases hbase : '/' ∈ baseName
  · -- the call throws another exception, and tries nothing
    refine iff_of_false ?_ fun hand => hand.1 hbase
    intro hwithin
    have htemp := temporary_of_mem lib stream parentPath fs maxTries hbase
    have hnot : ¬ ∀ i < maxTries,
        NamesDirectory env fs (cStr (candidate stream baseName parentPath i)) := by
      rw [← hwithin.gives_up_iff, htemp]
      simp
    obtain ⟨i, hi, habs, hbefore⟩ := exists_first_absent h hnot
    have hok := hwithin.first_absent i hi habs hbefore
    rw [htemp] at hok
    cases hok
  obtain ⟨r, fs', n, hend, htemp, hattempts⟩ :=
    exists_ends lib stream parentPath fs maxTries hbase
  have hlen : (attempts lib stream baseName parentPath maxTries fs).length = n := by
    rw [hattempts, List.length_map, List.length_range]
  simp only [hbase, not_false_eq_true, true_and]
  rcases hend.of_absent_or_directory h with
    ⟨i, hi, rfl, rfl, habs, hbefore⟩ | ⟨⟨what, rfl⟩, rfl, hall⟩
  · constructor
    · intro hwithin
      have hle := hwithin.length_le
      rw [hlen] at hle
      exact ⟨i, hle, habs⟩
    · rintro ⟨j, hj, hjabs⟩
      have hnot : ¬ ∀ k < maxTries,
          NamesDirectory env fs (cStr (candidate stream baseName parentPath k)) :=
        fun hall => hjabs.not_namesDirectory (hall j hj)
      obtain ⟨j', hj', habs', hbefore'⟩ := exists_first_absent h hnot
      obtain rfl := eq_of_first_absent habs hbefore habs' hbefore'
      -- the path with the number `i` was returned, by the try `i + 1`
      constructor
      · rw [hlen]
        exact hj'
      · intro k _ hkabs hkbefore
        obtain rfl := eq_of_first_absent habs hbefore hkabs hkbefore
        rw [htemp]
      · rw [htemp]
        exact iff_of_false (by simp) hnot
  · -- all paths that may be tried are directories, and one more as well
    refine iff_of_false ?_ ?_
    · intro hwithin
      have hle := hwithin.length_le
      rw [hlen] at hle
      exact absurd hle (Nat.not_succ_le_self _)
    · rintro ⟨j, hj, hjabs⟩
      exact hjabs.not_namesDirectory (hall j (Nat.lt_succ_of_lt hj))

/-- A stream whose first value is met by the directory `/t000000`. -/
def collidingStream : ℕ → Fin 0x1000000
  | 0 => 0
  | _ + 1 => 1

/-- The file system with the directory `/t000000`. -/
def collidingFs : FileSystem := FileSystem.rootOnly.addDirectory [] "t000000".toList

theorem absent_or_directory_colliding (i : ℕ) :
    Absent (Env.ofCwd []) collidingFs (cStr (candidate collidingStream "t".toList [] i)) ∨
      NamesDirectory (Env.ofCwd []) collidingFs
        (cStr (candidate collidingStream "t".toList [] i)) := by
  cases i with
  | zero => exact .inr (by decide)
  | succ i =>
    have hfrontier : Frontier collidingFs 40 [] [] ["t000001".toList] [] 40 :=
      ⟨leads_nil FileSystem.kind_root, by decide⟩
    -- the values behind the first one are all alike
    have hsame : candidate collidingStream "t".toList [] (i + 1) =
        candidate collidingStream "t".toList [] 1 := rfl
    rw [hsame]
    exact .inl ⟨[], ["t000001".toList], [], 40, by decide, by decide, by decide, hfrontier⟩

/-- With two tries the second path is made. -/
theorem withinTries_iff_colliding :
    WithinTries (StdFilesystem.addMissing (Env.ofCwd [])) collidingStream "t".toList [] 2
        collidingFs ↔
      '/' ∉ "t".toList ∧ ∃ i < 2, Absent (Env.ofCwd []) collidingFs
        (cStr (candidate collidingStream "t".toList [] i)) :=
  withinTries_iff _ absent_or_directory_colliding

/-- With one try as the maximum, the second path is made as well. -/
theorem not_withinTries_colliding :
    (∀ i, Absent (Env.ofCwd []) collidingFs (cStr (candidate collidingStream "t".toList [] i)) ∨
        NamesDirectory (Env.ofCwd []) collidingFs
          (cStr (candidate collidingStream "t".toList [] i))) ∧
      ¬ WithinTries (StdFilesystem.addMissing (Env.ofCwd [])) collidingStream "t".toList [] 1
        collidingFs := by
  refine ⟨absent_or_directory_colliding, ?_⟩
  intro h
  have hle := h.length_le
  revert hle
  decide

end Loop

end RcppUtils
