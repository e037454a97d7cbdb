import RcppUtils.Filesystem.RemoveAll
import RcppUtils.Program.Monitor
import RcppUtils.Program.Resources

/-!
# The directory streams of `remove_all`

`opendir` and the removal of an entry may fail at any time. `remove_all` reads from what `opendir`
returned without a test, and both returns inside its loop leave the stream open. It closes its
streams as long as neither happens.

## Main definitions

* `failing env failures`: the system calls, of which some fail
* `StreamsBalanced`: all streams are opened before they are read, and closed exactly once
* `Proceeds`: the condition on one call
* `countEntries es`: the number of names that the loop does not skip

## Main results

* `settles_removeAll`: what `remove_all` leaves open
* `streamsBalanced_iff`: when the streams are balanced
* `streamsBalanced_iff_of_flat`: when they are on a directory of regular files
-/

namespace RcppUtils

open Posix Program

/-! ## Calls that fail -/

/-- The system calls, where the `k`-th call of `opendir` or `remove` fails with `failures k`, and
changes nothing then. -/
def failing (env : Env) (failures : ℕ → Option Errno) :
    Handler SysCall SysCall.Reply (World × ℕ)
  | .opendir path, (w, k) =>
    match failures k with
    | some _ => (none, (w, k + 1))
    | none => ((handler env (.opendir path) w).1, ((handler env (.opendir path) w).2, k + 1))
  | .remove path, (w, k) =>
    match failures k with
    | some e => (.error e, (w, k + 1))
    | none => ((handler env (.remove path) w).1, ((handler env (.remove path) w).2, k + 1))
  | op, (w, k) => ((handler env op w).1, ((handler env op w).2, k))

variable {S : Type}

/-- A handler that numbers the streams: each has a new number, and keeps it when it is read. -/
structure NumbersStreams (h : Handler SysCall SysCall.Reply S) (next : S → ℕ) : Prop where
  le : ∀ op s, next s ≤ next (h op s).2
  opendir : ∀ path s dir, (h (.opendir path) s).1 = some dir →
    next s ≤ dir.id ∧ dir.id < next (h (.opendir path) s).2
  readdir : ∀ dir s n dir', (h (.readdir dir) s).1 = some (n, dir') → dir'.id = dir.id

/-! ## Streams as resources -/

section Streams

variable (h : Handler SysCall SysCall.Reply S)

/-- What a call does to a stream: a stream is acquired by a successful `opendir`. -/
def streamEvent : SysCall × S → Option (Resources.Event ℕ)
  | (.opendir path, s) =>
    match (h (.opendir path) s).1 with
    | some (dir : Dir) => some (.acquire dir.id)
    | none => none
  | (.readdir dir, _) => some (.use dir.id)
  | (.closedir dir, _) => some (.release dir.id)
  | _ => none

/-- What the calls do to streams. -/
def streamEvents (cs : List (SysCall × S)) : List (Resources.Event ℕ) :=
  cs.filterMap (streamEvent h)

/-- The call of `remove_all(p)` never reads from a null pointer, it reads and closes streams that it
has opened and not closed before, and when it returns it has closed each of them exactly once. -/
structure StreamsBalanced (fuel : ℕ) (p : Path) (s : S) : Prop where
  defined : ((removeAll fuel p).run h s).1 ≠ .undefined
  disciplined : Resources.Disciplined (streamEvents h ((removeAll fuel p).calls h s))
  closed : ∀ b, ((removeAll fuel p).run h s).1 = .returns b →
    ∀ id ∈ Resources.acquired (streamEvents h ((removeAll fuel p).calls h s)),
      (Resources.released (streamEvents h ((removeAll fuel p).calls h s))).count id = 1

/-- The streams that are open, and whether the last call closed one. -/
structure Streams where
  held : List ℕ
  closing : Bool

/-- No stream is open. -/
def Streams.none : Streams := ⟨[], false⟩

/-- Whether the call closes a stream. -/
def isClosedir : SysCall → Bool
  | .closedir _ => true
  | _ => false

/-- The streams after a call. -/
def streamStep (c : SysCall × S) (g : Streams) : Option Streams :=
  match streamEvent h c with
  | none => some ⟨g.held, isClosedir c.1⟩
  | some e => (Resources.step e g.held).map fun held => ⟨held, isClosedir c.1⟩

/-- The condition on one call: `opendir` succeeds; and while a stream is open, a removal succeeds,
unless it comes right behind a `closedir`, and nothing is found to exist. -/
def Proceeds : SysCall × S → Streams → Prop
  | (.opendir path, s), _ => ∃ dir, (h (.opendir path) s).1 = some dir
  | (.remove path, s), g => g.held ≠ [] → g.closing = false → (h (.remove path) s).1 = .ok ()
  | (.access path, s), g => g.held ≠ [] → ∃ e, (h (.access path) s).1 = .error e
  | _, _ => True

end Streams

/-! ## Single calls -/

theorem toBool_eq_true_iff (r : Except Errno Unit) : r.toBool = true ↔ r = .ok () := by
  cases r <;> simp [Except.toBool]

theorem toBool_eq_false_iff (r : Except Errno Unit) : r.toBool = false ↔ ∃ e, r = .error e := by
  cases r <;> simp [Except.toBool]

section Calls

variable (h : Handler SysCall SysCall.Reply S) (p : Path) (s : S) (g : Streams)

theorem watched_isDirectory :
    ∃ b, Watched h (streamStep h) (Proceeds h) p.isDirectory s g b
      (h (.stat (cStr p.path)) s).2 ⟨g.held, false⟩ True := by
  rw [Path.isDirectory_eq_call]
  exact ⟨_, Watched.single _ rfl⟩

theorem watched_remove :
    ∃ b, Watched h (streamStep h) (Proceeds h) (remove p) s g b
      (h (.remove (cStr p.path)) s).2 ⟨g.held, false⟩
      (g.held ≠ [] → g.closing = false → b = true) := by
  rw [remove_eq_call]
  refine ⟨_, (Watched.single _ rfl).congr ?_⟩
  exact imp_congr_right fun _ => imp_congr_right fun _ => (toBool_eq_true_iff _).symm

theorem watched_exists :
    ∃ b, Watched h (streamStep h) (Proceeds h) p.exists s g b
      (h (.access (cStr p.path)) s).2 ⟨g.held, false⟩ (g.held ≠ [] → b = false) := by
  rw [Path.exists_eq_call]
  refine ⟨_, (Watched.single _ rfl).congr ?_⟩
  exact imp_congr_right fun _ => (toBool_eq_false_iff _).symm

end Calls

/-! ## What is left open -/

/-- No call has failed: nothing is undefined, and a return closes what it has opened, and is true if
other streams are open. -/
structure Clean (held : List ℕ) (outcome : Outcome) (held' : List ℕ) : Prop where
  defined : outcome ≠ .undefined
  returns : ∀ b, outcome = .returns b → held' = held ∧ (held = [] ∨ b = true)

/-- From `held` streams to `held'`: none of them is closed, `returns true` leaves no other open, and
the calls proceed, which `E` says, exactly when the end is clean. -/
structure Leaves (held : List ℕ) (outcome : Outcome) (held' : List ℕ) (E : Prop) : Prop where
  suffix : held <:+ held'
  of_true : outcome = .returns true → held' = held
  iff_clean : E ↔ Clean held outcome held'

section Settles

variable (h : Handler SysCall SysCall.Reply S)

/-- The program, started with the streams `g`, goes back to the streams `held`, as far as its calls
proceed. -/
def Settles (m : SysProgram Outcome) (s : S) (g : Streams) (held : List ℕ) : Prop :=
  ∃ outcome s' held' E, Watched h (streamStep h) (Proceeds h) m s g outcome s' ⟨held', false⟩ E ∧
    Leaves held outcome held' E

variable {h} {s : S} {g : Streams} {held : List ℕ}

/-- A return that closes what it has opened. -/
theorem settles_of_returns {m : SysProgram Outcome} {b : Bool} {s' : S} {E : Prop}
    (hm : Watched h (streamStep h) (Proceeds h) m s g (.returns b) s' ⟨held, false⟩ E)
    (hE : E ↔ (held ≠ [] → b = true)) : Settles h m s g held := by
  refine ⟨_, _, _, _, hm, List.suffix_rfl, fun _ => rfl, hE.trans ?_⟩
  constructor
  · intro hb
    refine ⟨by simp, ?_⟩
    rintro _ ⟨⟩
    exact ⟨rfl, or_iff_not_imp_left.mpr hb⟩
  · intro hclean
    exact or_iff_not_imp_left.mp (hclean.returns b rfl).2

/-- A program that runs out of fuel. -/
theorem settles_outOfFuel (hheld : held <:+ g.held) (hg : g.closing = false) :
    Settles h (Program.ret .outOfFuel) s g held := by
  obtain ⟨held', closing⟩ := g
  obtain rfl := hg
  refine ⟨_, _, _, _, Watched.ret _ _ _, hheld, by simp, ?_⟩
  exact iff_of_true trivial ⟨by simp, by simp⟩

/-- A call that proceeds comes before. -/
theorem Settles.call {op : SysCall} {k : op.Reply → SysProgram Outcome} {g₁ : Streams}
    (hg : streamStep h (op, s) g = some g₁) (hC : Proceeds h (op, s) g)
    (hk : Settles h (k (h op s).1) (h op s).2 g₁ held) :
    Settles h (Program.call op k) s g held := by
  obtain ⟨o, s', held', E, hwatched, hleaves⟩ := hk
  exact ⟨o, s', held', E, (Watched.call hg hwatched).congr (and_iff_right hC), hleaves⟩

/-- A program that is watched and proceeds comes before. -/
theorem Settles.bind {α : Type} {m : SysProgram α} {f : α → SysProgram Outcome} {a : α} {s₁ : S}
    {g₁ : Streams} {E : Prop} (hm : Watched h (streamStep h) (Proceeds h) m s g a s₁ g₁ E) (hE : E)
    (hf : Settles h (f a) s₁ g₁ held) : Settles h (m >>= f) s g held := by
  obtain ⟨o, s', held', E', hwatched, hleaves⟩ := hf
  exact ⟨o, s', held', E', (hm.bind hwatched).congr (and_iff_right hE), hleaves⟩

/-- The loop ends as an entry does whose removal does not return true: its own stream is open. -/
theorem Leaves.of_cons {id : ℕ} {outcome : Outcome} {held' : List ℕ} {E : Prop}
    (h : Leaves (id :: held) outcome held' E) (hne : outcome ≠ .returns true) :
    Leaves held outcome held' E := by
  refine ⟨(List.suffix_cons id held).trans h.suffix, fun he => absurd he hne, h.iff_clean.trans ?_⟩
  constructor
  · rintro ⟨hdefined, hreturns⟩
    refine ⟨hdefined, ?_⟩
    rintro b rfl
    -- with a stream open, only `returns true` is clean
    obtain ⟨-, hnil | rfl⟩ := hreturns b rfl
    · cases hnil
    · exact absurd rfl hne
  · rintro ⟨hdefined, hreturns⟩
    refine ⟨hdefined, ?_⟩
    rintro b rfl
    obtain ⟨rfl, -⟩ := hreturns b rfl
    have hlen := h.suffix.length_le
    simp at hlen

theorem andThen_of_ne {outcome : Outcome} (h : outcome ≠ .returns true)
    (next : SysProgram Outcome) : outcome.andThen next = Program.ret outcome := by
  rcases outcome with (_ | _) | _ | _
  · rfl
  · exact absurd rfl h
  · rfl
  · rfl

/-- What follows a part that returned true; another end of the part is an end of the whole. -/
theorem Settles.andThen {m next : SysProgram Outcome} {held₁ : List ℕ}
    (hm : Settles h m s g held₁)
    (hends : ∀ o held' E, Leaves held₁ o held' E → o ≠ .returns true → Leaves held o held' E)
    (hnext : ∀ s', Settles h next s' ⟨held₁, false⟩ held) :
    Settles h (m >>= fun o => o.andThen next) s g held := by
  obtain ⟨o, s', held', E, hwatched, hleaves⟩ := hm
  -- only behind `returns true` the next part runs
  by_cases ho : o = .returns true
  · subst ho
    obtain rfl := hleaves.of_true rfl
    have hE : E := hleaves.iff_clean.mpr ⟨by simp, by simp⟩
    exact Settles.bind hwatched hE (hnext s')
  · have hret : Watched h (streamStep h) (Proceeds h) (o.andThen next) s' ⟨held', false⟩ o s'
        ⟨held', false⟩ True := by
      rw [andThen_of_ne ho]
      exact Watched.ret _ _ _
    exact ⟨o, s', held', E, (hwatched.bind hret).congr (and_iff_left trivial),
      hends o held' E hleaves ho⟩

/-- **What the removal of an entry leaves open**, if the recursive call settles. -/
theorem settles_removeEntry {ra : Path → SysProgram Outcome}
    (hra : ∀ q s, Settles h (ra q) s ⟨held, false⟩ held) (sub : Path) (s : S) :
    Settles h (removeEntry ra sub) s ⟨held, false⟩ held := by
  -- the removal of the entry itself, in the end
  have hremove : ∀ s, Settles h (do return .returns (← remove sub)) s ⟨held, false⟩ held := by
    intro s
    obtain ⟨b, hb⟩ := watched_remove h sub s ⟨held, false⟩
    exact settles_of_returns (hb.bind (Watched.ret _ _ _)) (by simp)
  obtain ⟨b, hdir⟩ := watched_isDirectory h sub s ⟨held, false⟩
  rw [removeEntry]
  apply Settles.bind hdir trivial
  cases b with
  | false => exact hremove _
  | true => exact (hra sub _).andThen (fun _ _ _ hleaves _ => hleaves) hremove

/-- What follows the loop closes its stream. -/
theorem settles_finishRemoveAll (p : Path) (dir : Dir) (s : S) :
    Settles h (finishRemoveAll p dir) s ⟨dir.id :: held, false⟩ held := by
  have hclose : streamStep h (.closedir dir, s) ⟨dir.id :: held, false⟩ = some ⟨held, true⟩ := by
    simp [streamStep, streamEvent, Resources.step, isClosedir]
  refine Settles.call hclose trivial ?_
  show Settles h (do
    let _ ← remove p
    return .returns !(← p.exists)) _ _ held
  -- the removal behind `closedir` may fail
  obtain ⟨b, hb⟩ := watched_remove h p (h (.closedir dir) s).2 ⟨held, true⟩
  refine Settles.bind hb (by simp) ?_
  obtain ⟨b', hb'⟩ := watched_exists h p (h (.remove (cStr p.path)) (h (.closedir dir) s).2).2
    ⟨held, false⟩
  exact settles_of_returns (hb'.bind (Watched.ret _ _ _)) (by simp)

/-- **What the loop leaves open**, if the recursive calls settle. The induction is on the rounds. -/
theorem settles_removeEntries {next : S → ℕ} (hh : NumbersStreams h next)
    {ra : Path → SysProgram Outcome} {id : ℕ}
    (hra : ∀ q s, Settles h (ra q) s ⟨id :: held, false⟩ (id :: held)) (p : Path) (rounds : ℕ)
    {dir : Dir} (hdir : dir.id = id) (s : S) :
    Settles h (removeEntries ra p rounds dir) s ⟨id :: held, false⟩ held := by
  induction rounds generalizing dir s with
  | zero => exact settles_outOfFuel (List.suffix_cons id held) rfl
  | succ rounds ih =>
    have hread : streamStep h (.readdir dir, s) ⟨id :: held, false⟩ = some ⟨id :: held, false⟩ := by
      simp [streamStep, streamEvent, Resources.step, isClosedir, hdir]
    refine Settles.call hread trivial ?_
    -- the stream keeps its number when it is read
    have hid := hh.readdir dir s
    generalize ((h (.readdir dir) s).1 : Option (Name × Dir)) = reply at hid ⊢
    cases reply with
    | none =>
      subst hdir
      exact settles_finishRemoveAll p dir _
    | some entry =>
      obtain ⟨n, dir'⟩ := entry
      have hdir' : dir'.id = id := (hid n dir' rfl).trans hdir
      show Settles h (if n = dot ∨ n = dotdot then removeEntries ra p rounds dir'
        else removeEntry ra (subPath p n) >>= fun o =>
          o.andThen (removeEntries ra p rounds dir')) _ _ held
      split_ifs
      · exact ih hdir' _
      · exact (settles_removeEntry hra (subPath p n) _).andThen
          (fun _ _ _ hleaves hne => hleaves.of_cons hne) fun s' => ih hdir' s'

/-- What follows `opendir`: a null pointer is undefined, and a stream is closed again. -/
theorem settles_opendir {k : Option Dir → SysProgram Outcome}
    (hnone : k none = Program.ret .undefined)
    (hsome : ∀ dir s, Settles h (k (some dir)) s ⟨dir.id :: held, false⟩ held) (path : List Char)
    (s : S) : Settles h (Program.call (.opendir path) k) s ⟨held, false⟩ held := by
  cases hr : ((h (.opendir path) s).1 : Option Dir) with
  | none =>
    have hstep : streamStep h (.opendir path, s) ⟨held, false⟩ = some ⟨held, false⟩ := by
      simp [streamStep, streamEvent, hr, isClosedir]
    have hret : Watched h (streamStep h) (Proceeds h) (k (h (.opendir path) s).1)
        (h (.opendir path) s).2 ⟨held, false⟩ .undefined (h (.opendir path) s).2 ⟨held, false⟩
        True := by
      rw [hr, hnone]
      exact Watched.ret _ _ _
    refine ⟨_, _, _, _, Watched.call hstep hret, List.suffix_rfl, by simp, ?_⟩
    -- the call does not proceed, and the end is not clean
    refine iff_of_false ?_ fun hclean => hclean.defined rfl
    rintro ⟨⟨dir, hdir⟩, -⟩
    cases hr.symm.trans hdir
  | some dir =>
    have hstep : streamStep h (.opendir path, s) ⟨held, false⟩ = some ⟨dir.id :: held, false⟩ := by
      simp [streamStep, streamEvent, hr, Resources.step, isClosedir]
    refine Settles.call hstep ⟨dir, hr⟩ ?_
    rw [hr]
    exact hsome dir _

/-- **What `remove_all` leaves open.** The induction is on the fuel. -/
theorem settles_removeAll {next : S → ℕ} (hh : NumbersStreams h next) (fuel : ℕ) (p : Path) (s : S)
    (held : List ℕ) : Settles h (removeAll fuel p) s ⟨held, false⟩ held := by
  induction fuel generalizing p s held with
  | zero => exact settles_outOfFuel List.suffix_rfl rfl
  | succ fuel ih =>
    obtain ⟨b, hdir⟩ := watched_isDirectory h p s ⟨held, false⟩
    rw [removeAll]
    apply Settles.bind hdir trivial
    cases b with
    | false =>
      obtain ⟨b, hb⟩ := watched_remove h p (h (.stat (cStr p.path)) s).2 ⟨held, false⟩
      exact settles_of_returns (hb.bind (Watched.ret _ _ _)) (by simp)
    | true =>
      show Settles h (Program.call (.opendir (cStr p.path)) _) _ _ held
      exact settles_opendir rfl (fun dir s => settles_removeEntries hh (fun q s => ih q s _) p fuel
        rfl s) _ _

end Settles

/-! ## Balanced streams -/

section Balanced

variable {h : Handler SysCall SysCall.Reply S} {next : S → ℕ}

/-- Watching the calls keeps the resources of their events. -/
theorem run_streamEvents {cs : List (SysCall × S)} {g g' : Streams}
    (hrun : Machine.run (streamStep h) cs g = some g') :
    Machine.run Resources.step (streamEvents h cs) g.held = some g'.held := by
  induction cs generalizing g with
  | nil =>
    obtain rfl : g = g' := Option.some_inj.mp hrun
    rfl
  | cons c cs ih =>
    obtain ⟨g₁, hstep, hrun⟩ := Option.bind_eq_some_iff.mp hrun
    have htail := ih hrun
    rw [streamStep] at hstep
    -- a call without an event leaves the streams as they are
    cases he : streamEvent h c with
    | none =>
      rw [he] at hstep
      obtain rfl := Option.some_inj.mp hstep
      rwa [streamEvents, List.filterMap_cons_none he]
    | some e =>
      rw [he] at hstep
      obtain ⟨held, hheld, rfl⟩ := Option.map_eq_some_iff.mp hstep
      rw [streamEvents, List.filterMap_cons_some he, Machine.run, hheld]
      exact htail

/-- A stream that is acquired has a new number. -/
theorem lt_of_streamEvent (hh : NumbersStreams h next) {op : SysCall} {s : S} {id : ℕ}
    (he : streamEvent h (op, s) = some (.acquire id)) : next s ≤ id ∧ id < next (h op s).2 := by
  cases op with
  | opendir path =>
    rw [streamEvent] at he
    cases hr : ((h (.opendir path) s).1 : Option Dir) with
    | none => simp [hr] at he
    | some dir =>
      obtain rfl : dir.id = id := by simpa [hr] using he
      exact hh.opendir path s dir hr
  | access | stat | mkdir | remove | readdir | closedir => simp [streamEvent] at he

/-- The streams that a program opens have different numbers, which are all new. -/
theorem nodup_acquired (hh : NumbersStreams h next) {α : Type} (m : SysProgram α) (s : S) :
    (Resources.acquired (streamEvents h (m.calls h s))).Nodup ∧
      ∀ id ∈ Resources.acquired (streamEvents h (m.calls h s)), next s ≤ id := by
  induction m generalizing s with
  | ret a => exact ⟨List.nodup_nil, by simp [streamEvents, Resources.acquired]⟩
  | call op k ih =>
    obtain ⟨hnodup, hnew⟩ := ih (h op s).1 (h op s).2
    have hle : ∀ id ∈ Resources.acquired (streamEvents h ((k (h op s).1).calls h (h op s).2)),
        next s ≤ id := fun id hid => (hh.le op s).trans (hnew id hid)
    rw [calls_call, streamEvents]
    cases he : streamEvent h (op, s) with
    | none =>
      rw [List.filterMap_cons_none he]
      exact ⟨hnodup, hle⟩
    | some e =>
      rw [List.filterMap_cons_some he]
      cases e with
      | acquire id =>
        -- the number of a new stream is smaller than the later ones
        obtain ⟨hid, hlt⟩ := lt_of_streamEvent hh he
        rw [Resources.acquired_cons_acquire]
        exact ⟨List.nodup_cons.mpr ⟨fun hmem => (hnew id hmem).not_gt hlt, hnodup⟩,
          List.forall_mem_cons.mpr ⟨hid, hle⟩⟩
      | use id => exact ⟨hnodup, hle⟩
      | release id => exact ⟨hnodup, hle⟩

theorem numbersStreams_handler (env : Env) : NumbersStreams (handler env) World.opened where
  le := by
    intro op w
    have hupdate : ∀ r, w.opened ≤ (w.update r).2.opened := by
      intro r
      cases r <;> exact le_rfl
    cases op with
    | opendir path =>
      simp only [handler]
      split
      · exact Nat.le_succ _
      · exact le_rfl
    | readdir dir =>
      simp only [handler]
      split <;> exact le_rfl
    | mkdir path | remove path => exact hupdate _
    | access path | stat path | closedir dir => exact le_rfl
  opendir := by
    intro path w dir hdir
    simp only [handler] at hdir ⊢
    split at hdir
    · obtain rfl := Option.some_inj.mp hdir
      exact ⟨le_rfl, Nat.lt_succ_self _⟩
    · cases hdir
  readdir := by
    intro dir w n dir' hdir
    simp only [handler] at hdir
    split at hdir
    · cases hdir
    · cases hdir
      rfl

theorem numbersStreams_failing (env : Env) (failures : ℕ → Option Errno) :
    NumbersStreams (failing env failures) fun s => s.1.opened := by
  have hh := numbersStreams_handler env
  constructor
  · rintro op ⟨w, k⟩
    cases op with
    | opendir path | remove path =>
      simp only [failing]
      cases failures k with
      | none => exact hh.le _ w
      | some e => exact le_rfl
    | access path | stat path | mkdir path | readdir dir | closedir dir => exact hh.le _ w
  · rintro path ⟨w, k⟩ dir hdir
    simp only [failing] at hdir ⊢
    cases hf : failures k with
    | none =>
      rw [hf] at hdir
      exact hh.opendir path w dir hdir
    | some e =>
      rw [hf] at hdir
      cases hdir
  · rintro dir ⟨w, k⟩ n dir' hdir
    exact hh.readdir dir w n dir' hdir

/-- Whatever the calls do, the streams are balanced exactly when the calls proceed. -/
theorem streamsBalanced_iff_everyStep (hh : NumbersStreams h next) (fuel : ℕ) (p : Path) (s : S) :
    StreamsBalanced h fuel p s ↔
      Machine.EveryStep (streamStep h) (Proceeds h) ((removeAll fuel p).calls h s) .none := by
  obtain ⟨o, s', held', E, hwatched, hleaves⟩ := settles_removeAll hh fuel p s []
  obtain ⟨hnodup, -⟩ := nodup_acquired hh (removeAll fuel p) s
  have hrun := run_streamEvents hwatched.watch
  have houtcome : ((removeAll fuel p).run h s).1 = o := by rw [hwatched.run]
  have hclosed := Resources.released_once_iff hrun hnodup
  refine Iff.trans ?_ (hleaves.iff_clean.symm.trans hwatched.meets.symm)
  constructor
  · rintro ⟨hdefined, -, hreturns⟩
    rw [houtcome] at hdefined hreturns
    exact ⟨hdefined, fun b hb => ⟨hclosed.mp (hreturns b hb), .inl rfl⟩⟩
  · rintro ⟨hdefined, hreturns⟩
    refine ⟨houtcome ▸ hdefined, Resources.disciplined_of_run hrun hnodup, ?_⟩
    intro b hb
    exact hclosed.mpr (hreturns b (houtcome.symm.trans hb)).1

/-- Without a failure the stream of `/t` is closed. -/
example : StreamsBalanced (failing (Env.ofCwd []) fun _ => none) 9 (.ofString .posix ['t'])
    (⟨flatTree, 0⟩, 0) := by
  apply (streamsBalanced_iff_everyStep (numbersStreams_failing _ _) _ _ _).mpr
  refine .cons rfl trivial (.cons rfl ⟨_, rfl⟩ ?_)
  -- the dot entries, and the file
  refine .cons rfl trivial (.cons rfl trivial (.cons rfl trivial ?_))
  refine .cons rfl trivial (.cons rfl (fun _ _ => rfl) ?_)
  -- the end of the listing, and the directory itself
  refine .cons rfl trivial (.cons rfl trivial ?_)
  exact .cons rfl (absurd rfl) (.cons rfl (absurd rfl) trivial)

/-- **The streams are balanced exactly when the calls proceed**: every `opendir` succeeds; and while
a directory is listed, each removal succeeds, but for the one right behind a `closedir`, and no
directory that was removed is found to exist. -/
theorem streamsBalanced_iff (env : Env) (failures : ℕ → Option Errno) (fuel : ℕ) (p : Path)
    (w : World) :
    StreamsBalanced (failing env failures) fuel p (w, 0) ↔
      Machine.EveryStep (streamStep (failing env failures)) (Proceeds (failing env failures))
        ((removeAll fuel p).calls (failing env failures) (w, 0)) .none :=
  streamsBalanced_iff_everyStep (numbersStreams_failing env failures) fuel p (w, 0)

/-- When the file `/t/f` cannot be removed, the stream of `/t` is left open; and when `/t` cannot be
opened, a null pointer is read. -/
theorem not_streamsBalanced :
    ¬ StreamsBalanced (failing (Env.ofCwd []) fun k => if k = 1 then some .ebusy else none) 9
        (.ofString .posix ['t']) (⟨flatTree, 0⟩, 0) ∧
      ¬ StreamsBalanced (failing (Env.ofCwd []) fun k => if k = 0 then some .ebusy else none) 9
        (.ofString .posix ['t']) (⟨flatTree, 0⟩, 0) := by
  constructor
  · intro h
    have hclosed := h.closed false (by decide) 0 (by decide)
    revert hclosed
    decide
  · intro h
    have hdefined := h.defined
    revert hdefined
    decide

end Balanced

/-! ## A directory of regular files -/

section Flat

variable {env : Env} {failures : ℕ → Option Errno} {p : Path} {w : World} {d : Loc} {j : ℕ}

/-- The number of names that the loop does not skip. -/
def countEntries (es : List Name) : ℕ := es.countP fun n => n ≠ dot ∧ n ≠ dotdot

theorem countEntries_cons_dots {n : Name} (hn : n = dot ∨ n = dotdot) (es : List Name) :
    countEntries (n :: es) = countEntries es := by
  rw [countEntries, List.countP_cons_of_neg]
  · rfl
  · simpa [imp_iff_not_or] using hn

theorem countEntries_cons {n : Name} (hn : ¬ (n = dot ∨ n = dotdot)) (es : List Name) :
    countEntries (n :: es) = countEntries es + 1 := by
  rw [countEntries, List.countP_cons_of_pos]
  · rfl
  · simpa [not_or] using hn

theorem countEntries_order (k : ℕ) :
    countEntries (env.order k (dot :: dotdot :: w.fs.children d)) = (w.fs.children d).length := by
  have hchildren : countEntries (w.fs.children d) = (w.fs.children d).length := by
    apply List.countP_eq_length.mpr
    intro n hn
    have hname := isName_of_mem_children hn
    simp [hname.ne_dot, hname.ne_dotdot]
  rw [countEntries, (env.order_perm _ _).countP_eq]
  change countEntries _ = _
  rw [countEntries_cons_dots (.inl rfl), countEntries_cons_dots (.inr rfl), hchildren]

theorem run_isDirectory_failing (q : Path) (k : ℕ) :
    q.isDirectory.run (failing env failures) (w, k) =
      (namesDirectory env w.fs (cStr q.path), (w, k)) := by
  have hrun := congrArg Prod.fst (run_isDirectory env w q)
  rw [Path.isDirectory_eq_call] at hrun ⊢
  exact Prod.ext hrun rfl

/-- The test for a directory changes nothing, and closes no stream. -/
theorem watched_isDirectory_failing (env : Env) (failures : ℕ → Option Errno) (q : Path) (w : World)
    (k : ℕ) (held : List ℕ) :
    Watched (failing env failures) (streamStep (failing env failures))
      (Proceeds (failing env failures)) q.isDirectory (w, k) ⟨held, false⟩
      (namesDirectory env w.fs (cStr q.path)) (w, k) ⟨held, false⟩ True := by
  obtain ⟨b, hstat⟩ := watched_isDirectory (failing env failures) q (w, k) ⟨held, false⟩
  have hrun := hstat.run
  rw [run_isDirectory_failing] at hrun
  obtain ⟨hb, hs⟩ := Prod.mk.inj hrun
  rwa [← hb, ← hs] at hstat

theorem run_remove_failing (q : Path) (k : ℕ) :
    (remove q).run (failing env failures) (w, k) =
      if failures k = none then
        (((remove q).run (handler env) w).1, ((remove q).run (handler env) w).2, k + 1)
      else (false, w, k + 1) := by
  rw [remove_eq_call]
  show (Except.toBool (failing env failures (.remove (cStr q.path)) (w, k)).1,
    (failing env failures (.remove (cStr q.path)) (w, k)).2) = _
  rw [failing]
  cases failures k with
  | none => rfl
  | some e => rfl

/-- The removal of a regular file, where `remove` is the `k`-th call that may fail. -/
theorem watched_removeEntry_of_regular (loc : Locates env w.fs p d j) {n : Name} (hb : '\\' ∉ n)
    (hreg : w.fs.kind (d ++ [n]) = some .regular) (ra : Path → SysProgram Outcome) (k id : ℕ) :
    ∃ b s', Watched (failing env failures) (streamStep (failing env failures))
      (Proceeds (failing env failures)) (removeEntry ra (subPath p n)) (w, k) ⟨[id], false⟩
      (.returns b) s' ⟨[id], false⟩ (b = true) ∧ (b = true ↔ failures k = none) ∧
      (b = true → s' = ({ w with fs := w.fs.erase (d ++ [n]) }, k + 1)) := by
  have hstat := watched_isDirectory_failing env failures (subPath p n) w k [id]
  rw [loc.namesDirectory_subPath hb hreg] at hstat
  obtain ⟨b, hremove⟩ := watched_remove (failing env failures) (subPath p n) (w, k) ⟨[id], false⟩
  refine ⟨b, (failing env failures (.remove (cStr (subPath p n).path)) (w, k)).2, ?_, ?_⟩
  · rw [removeEntry]
    exact (hstat.bind (hremove.bind (Watched.ret (Outcome.returns b) _ _))).congr (by simp)
  · have hrun := hremove.run
    rw [run_remove_failing, run_remove_of_ok env w _ (loc.remove_subPath hb hreg)] at hrun
    split_ifs at hrun with hk
    · obtain ⟨rfl, hs⟩ := Prod.mk.inj hrun
      exact ⟨by simp [hk], fun _ => hs.symm⟩
    · obtain ⟨rfl, -⟩ := Prod.mk.inj hrun
      simp [hk]

/-- What follows the loop proceeds, if no other stream is open. -/
theorem everyStep_finishRemoveAll (p : Path) (dir : Dir) (s : World × ℕ) :
    Machine.EveryStep (streamStep (failing env failures)) (Proceeds (failing env failures))
      ((finishRemoveAll p dir).calls (failing env failures) s) ⟨[dir.id], false⟩ := by
  set h := failing env failures
  have hclose : streamStep h (.closedir dir, s) ⟨[dir.id], false⟩ = some ⟨[], true⟩ := by
    simp [streamStep, streamEvent, Resources.step, isClosedir]
  obtain ⟨b, hremove⟩ := watched_remove h p (h (.closedir dir) s).2 ⟨[], true⟩
  obtain ⟨b', hexists⟩ := watched_exists h p (h (.remove (cStr p.path)) (h (.closedir dir) s).2).2
    ⟨[], false⟩
  refine (everyStep_call hclose).mpr ⟨trivial, ?_⟩
  show Machine.EveryStep _ _ ((do
    let _ ← remove p
    return Outcome.returns !(← p.exists)).calls h _) _
  refine hremove.everyStep_bind.mpr ⟨by simp, ?_⟩
  exact hexists.everyStep_bind.mpr ⟨by simp, trivial⟩

/-- **The loop over regular files proceeds exactly when none of their removals fails.** The
induction is on the entries that are still to be read. -/
theorem everyStep_removeEntries_of_regular (ra : Path → SysProgram Outcome) (id : ℕ)
    {es : List Name} {rounds : ℕ} (hrounds : es.length < rounds) (hnodup : es.Nodup)
    (loc : Locates env w.fs p d j)
    (hes : ∀ n ∈ es, n ≠ dot → n ≠ dotdot →
      '\\' ∉ n ∧ w.fs.kind (d ++ [n]) = some .regular) (k : ℕ) :
    Machine.EveryStep (streamStep (failing env failures)) (Proceeds (failing env failures))
        ((removeEntries ra p rounds ⟨id, es⟩).calls (failing env failures) (w, k)) ⟨[id], false⟩ ↔
      ∀ i < countEntries es, failures (k + i) = none := by
  have hread : ∀ dir : Dir, dir.id = id → ∀ s, streamStep (failing env failures) (.readdir dir, s)
      ⟨[id], false⟩ = some ⟨[id], false⟩ := by
    intro dir hdir s
    simp [streamStep, streamEvent, Resources.step, isClosedir, hdir]
  induction es generalizing w rounds k with
  | nil =>
    obtain ⟨rounds, rfl⟩ := Nat.exists_eq_add_of_lt hrounds
    refine iff_of_true ?_ (by simp [countEntries])
    rw [removeEntries]
    exact (everyStep_call (hread _ rfl _)).mpr ⟨trivial, everyStep_finishRemoveAll p ⟨id, []⟩ _⟩
  | cons n es ih =>
    obtain ⟨rounds, rfl⟩ := Nat.exists_eq_add_one_of_ne_zero (Nat.ne_zero_of_lt hrounds)
    have hlen : es.length < rounds := by simpa using hrounds
    obtain ⟨hnot, hnodup⟩ := List.nodup_cons.mp hnodup
    obtain ⟨hn, hes⟩ := List.forall_mem_cons.mp hes
    rw [removeEntries]
    refine (everyStep_call (hread _ rfl _)).trans ((and_iff_right trivial).trans ?_)
    show Machine.EveryStep _ _ ((if n = dot ∨ n = dotdot then removeEntries ra p rounds ⟨id, es⟩
      else removeEntry ra (subPath p n) >>= fun o =>
        o.andThen (removeEntries ra p rounds ⟨id, es⟩)).calls _ (w, k)) _ ↔ _
    -- `.` and `..` are skipped, and cost no removal
    by_cases hdots : n = dot ∨ n = dotdot
    · rw [if_pos hdots, countEntries_cons_dots hdots]
      exact ih hlen hnodup loc hes k
    · rw [if_neg hdots, countEntries_cons hdots, Nat.forall_lt_succ_left]
      rw [not_or] at hdots
      obtain ⟨hb, hreg⟩ := hn hdots.1 hdots.2
      obtain ⟨b, s', hentry, hiff, hs'⟩ := watched_removeEntry_of_regular loc hb hreg ra k id
      rw [hentry.everyStep_bind, hiff]
      refine and_congr_right fun hk => ?_
      -- the entry is gone, and the other entries stay as they are
      obtain rfl := hiff.mpr hk
      obtain rfl := hs' rfl
      have hes' : ∀ m ∈ es, m ≠ dot → m ≠ dotdot → '\\' ∉ m ∧
          (w.fs.erase (d ++ [n])).kind (d ++ [m]) = some .regular := by
        intro m hm hd hdd
        rw [kind_erase_sibling hreg (ne_of_mem_of_not_mem hm hnot)]
        exact hes m hm hd hdd
      have htail := ih (w := { w with fs := w.fs.erase (d ++ [n]) }) hlen hnodup (loc.erase hreg)
        hes' (k + 1)
      simp only [Nat.add_assoc, Nat.add_comm 1] at htail
      exact htail

variable (failures)

/-- The loop over the entries of a directory of regular files, in the order in which they are
listed. -/
theorem everyStep_removeEntries_of_flat (ra : Path → SysProgram Outcome) {rounds : ℕ}
    (hrounds : (w.fs.children d).length + 2 < rounds) (loc : Locates env w.fs p d j)
    (hflat : ∀ n ∈ w.fs.children d, '\\' ∉ n ∧ w.fs.kind (d ++ [n]) = some .regular) (id k : ℕ) :
    Machine.EveryStep (streamStep (failing env failures)) (Proceeds (failing env failures))
        ((removeEntries ra p rounds ⟨id, env.order id (dot :: dotdot :: w.fs.children d)⟩).calls
          (failing env failures) (w, k)) ⟨[id], false⟩ ↔
      ∀ i < (w.fs.children d).length, failures (k + i) = none := by
  have hlen : (env.order id (dot :: dotdot :: w.fs.children d)).length < rounds := by
    rwa [length_listing]
  have hes : ∀ n ∈ env.order id (dot :: dotdot :: w.fs.children d), n ≠ dot → n ≠ dotdot →
      '\\' ∉ n ∧ w.fs.kind (d ++ [n]) = some .regular := fun n hn hd hdd =>
    hflat n (mem_children_of_mem_listing hn hd hdd)
  have hnodup := nodup_listing env w.fs d id
  rw [everyStep_removeEntries_of_regular ra id hlen hnodup loc hes k, countEntries_order]

/-- `opendir` on a directory, where it is the `k`-th call that may fail. -/
theorem failing_opendir {u : List Char} (hdir : stat env w.fs u = .ok (d, .directory)) (k : ℕ) :
    failing env failures (.opendir u) (w, k) =
      if failures k = none then
        (some ⟨w.opened, env.order w.opened (dot :: dotdot :: w.fs.children d)⟩,
          ({ w with opened := w.opened + 1 }, k + 1))
      else (none, (w, k + 1)) := by
  have hhandler : handler env (.opendir u) w =
      (some ⟨w.opened, env.order w.opened (dot :: dotdot :: w.fs.children d)⟩,
        { w with opened := w.opened + 1 }) := run_opendir env w hdir
  rw [failing]
  cases failures k with
  | none =>
    rw [if_pos rfl]
    simp only [hhandler]
    rfl
  | some e => rfl

variable {failures}

/-- A run that opens a stream first proceeds exactly when that succeeds and the rest proceeds. -/
theorem everyStep_opendir {u : List Char} (hdir : stat env w.fs u = .ok (d, .directory)) (k : ℕ)
    (next : Option Dir → SysProgram Outcome) :
    Machine.EveryStep (streamStep (failing env failures)) (Proceeds (failing env failures))
        ((Program.call (.opendir u) next).calls (failing env failures) (w, k)) .none ↔
      failures k = none ∧
        Machine.EveryStep (streamStep (failing env failures)) (Proceeds (failing env failures))
          ((next (some ⟨w.opened, env.order w.opened (dot :: dotdot :: w.fs.children d)⟩)).calls
            (failing env failures) ({ w with opened := w.opened + 1 }, k + 1))
          ⟨[w.opened], false⟩ := by
  have hreply := failing_opendir failures hdir k
  by_cases hk : failures k = none
  · rw [if_pos hk] at hreply
    have hstep : streamStep (failing env failures) (.opendir u, (w, k)) .none =
        some ⟨[w.opened], false⟩ := by
      simp [streamStep, streamEvent, hreply, Resources.step, isClosedir, Streams.none]
    rw [and_iff_right hk]
    refine (everyStep_call hstep).trans ?_
    rw [hreply]
    exact and_iff_right ⟨_, congrArg Prod.fst hreply⟩
  · rw [if_neg hk] at hreply
    have hstep : streamStep (failing env failures) (.opendir u, (w, k)) .none = some .none := by
      simp [streamStep, streamEvent, hreply, isClosedir, Streams.none]
    refine iff_of_false ?_ (fun h => hk h.1)
    intro hproceeds
    obtain ⟨dir, hdir⟩ := ((everyStep_call hstep).mp hproceeds).1
    cases (congrArg Prod.fst hreply).symm.trans hdir

/-- **On a directory of regular files the streams are balanced exactly when neither `opendir` nor
the removal of a file fails.** -/
theorem streamsBalanced_iff_of_flat {fuel : ℕ} (hfuel : (w.fs.children d).length + 2 < fuel)
    (loc : Locates env w.fs p d j)
    (hflat : ∀ n ∈ w.fs.children d, '\\' ∉ n ∧ w.fs.kind (d ++ [n]) = some .regular) :
    StreamsBalanced (failing env failures) (fuel + 1) p (w, 0) ↔
      ∀ i ≤ (w.fs.children d).length, failures i = none := by
  have hstat := watched_isDirectory_failing env failures p w 0 []
  rw [namesDirectory_iff.mpr ⟨d, loc.stat⟩] at hstat
  -- the loop starts when the first call that may fail has succeeded
  have hloop := everyStep_removeEntries_of_flat failures
    (w := { w with opened := w.opened + 1 }) (removeAll fuel) hfuel loc hflat w.opened 1
  rw [streamsBalanced_iff_everyStep (numbersStreams_failing env failures), removeAll, Streams.none,
    hstat.everyStep_bind, and_iff_right trivial]
  refine (everyStep_opendir loc.stat 0 _).trans ((and_congr_right fun _ => hloop).trans ?_)
  simp only [← Nat.lt_succ_iff, Nat.forall_lt_succ_left, Nat.add_comm 1]

end Flat

end RcppUtils
