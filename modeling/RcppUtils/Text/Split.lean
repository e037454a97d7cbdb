import RcppUtils.Posix.CString

/-!
# Splitting strings

`split` reads tokens from a string stream with `getline` and assigns each to an insert
iterator. An assignment is a step of the iterator's state that may throw.

## Main definitions

* `StringStream`, `getline`: a stream being read, and its next token
* `splitInto`, `split`: the overload for insert iterators, and the one for vectors
* `tokens d s`: the pieces of `s` between delimiters, an empty last piece dropped
* `assignAll`: the assignments of a list of tokens, in order
* `Assigns`: the same as a fold that ends at the first exception

## Main results

* `splitInto_eq_assignAll`: the overload for iterators assigns the tokens in order
* `split_eq_keptTokens`: the overload for vectors returns the tokens
* `split_assigns`: the overload for iterators folds over what the one for vectors returns
* `split_append_cons`: splitting is a homomorphism at every delimiter
* `tokens_append_cons`: tokens are read off both sides of a delimiter
-/

namespace RcppUtils

/-- `std::string`. -/
abbrev StdString := List Char

/-- A string around the last occurrence of a character. -/
theorem exists_eq_append_last {d : Char} {s : StdString} (h : d ∈ s) :
    ∃ u v, s = u ++ d :: v ∧ d ∉ v := by
  obtain ⟨v, u, he, hv⟩ := List.eq_append_cons_of_mem (List.mem_reverse.mpr h)
  refine ⟨u.reverse, v.reverse, ?_, by simpa using hv⟩
  rw [← List.reverse_reverse s, he]
  simp

/-! ## The stream loop -/

/-- A `std::stringstream` being read: the characters still to be read, and its `eofbit`. -/
structure StringStream where
  rest : StdString
  eof : Bool

/-- `std::getline(ss, item, delim)`: the next token and the stream behind it, or `none` when the
call sets `failbit`. -/
def getline (ss : StringStream) (delim : Char) : Option (StdString × StringStream) :=
  if ss.eof then none
  else
    match ss.rest.dropWhile (· != delim) with
    | _ :: rest => some (ss.rest.takeWhile (· != delim), ⟨rest, false⟩)
    -- the end of the stream is reached: this fails when no character was extracted
    | [] => if ss.rest = [] then none else some (ss.rest, ⟨[], true⟩)

section SplitInto

variable {σ ε : Type} (assign : σ → StdString → Except ε σ) (delim : Char) (skipEmpty : Bool)

/-- At most `n` rounds of the loop of `split`. -/
def splitLoop : ℕ → StringStream → σ → σ × Option ε
  | 0, _, it => (it, none)
  | n + 1, ss, it =>
    match getline ss delim with
    | none => (it, none)
    | some (item, ss) =>
      if skipEmpty && item == [] then splitLoop n ss it
      else
        match assign it item with
        | .ok it => splitLoop n ss it
        | .error e => (it, some e)

/-- `split(input, delim, it, skip_empty)`: the state of the iterator at the end, and the
exception that ended the loop. Each round reads a character or is the last one. -/
def splitInto (input : StdString) (it : σ) : σ × Option ε :=
  splitLoop assign delim skipEmpty (input.length + 1) ⟨input, false⟩ it

end SplitInto

/-- The assignment of a `std::back_insert_iterator`. -/
def backInserter (result : List StdString) (item : StdString) :
    Except Empty (List StdString) :=
  .ok (result ++ [item])

/-- `split(input, delim, skip_empty)`. -/
def split (input : StdString) (delim : Char) (skipEmpty : Bool) : List StdString :=
  (splitInto backInserter delim skipEmpty input []).1

/-! ## Tokens -/

/-- The pieces of `s` between delimiters, an empty last piece dropped. -/
def tokens (d : Char) (s : StdString) : List StdString :=
  if (s.splitOn d).getLast? = some [] then (s.splitOn d).dropLast else s.splitOn d

/-- The tokens that the loop assigns. -/
def keptTokens (d : Char) (skipEmpty : Bool) (s : StdString) : List StdString :=
  if skipEmpty then (tokens d s).filter (· ≠ []) else tokens d s

@[simp] theorem tokens_nil (d : Char) : tokens d [] = [] := by
  simp [tokens]

/-- Tokens are read off both sides of a delimiter. -/
theorem tokens_append_cons (d : Char) (s t : StdString) :
    tokens d (s ++ d :: t) = s.splitOn d ++ tokens d t := by
  have ht := List.splitOn_ne_nil d t
  simp only [tokens, List.splitOn_append_cons_self, List.getLast?_append_of_ne_nil _ ht,
    List.dropLast_append_of_ne_nil ht]
  split_ifs <;> rfl

/-- A string that ends in a delimiter has no token behind it. -/
theorem tokens_concat (d : Char) (s : StdString) : tokens d (s ++ [d]) = s.splitOn d := by
  simp [tokens_append_cons]

theorem tokens_of_notMem {d : Char} {s : StdString} (h : d ∉ s) (hs : s ≠ []) :
    tokens d s = [s] := by
  simp [tokens, List.splitOn_eq_singleton h, hs]

/-- A first piece in front of a delimiter is a token. -/
theorem tokens_cons_of_notMem {d : Char} {s : StdString} (h : d ∉ s) (t : StdString) :
    tokens d (s ++ d :: t) = s :: tokens d t := by
  rw [tokens_append_cons, List.splitOn_eq_singleton h, List.singleton_append]

/-- The last piece is empty exactly behind a final delimiter. -/
theorem getLast?_splitOn (d : Char) (s : StdString) :
    (s.splitOn d).getLast? = some [] ↔ s = [] ∨ s.getLast? = some d := by
  induction s with
  | nil => simp
  | cons c s ih =>
    rw [List.splitOn_cons_eq_if_modifyHead]
    obtain ⟨m, ms, hms⟩ := List.exists_cons_of_ne_nil (List.splitOn_ne_nil d s)
    have hs : s = [d].intercalate (m :: ms) := by rw [← hms, List.intercalate_splitOn]
    rw [hms] at ih ⊢
    -- a delimiter in front adds a piece, another character joins the first piece
    rcases eq_or_ne c d with rfl | hc
    · rcases eq_or_ne s [] with rfl | hne
      · simpa using ih
      · simpa [List.getLast?_cons_of_ne_nil hne, hne] using ih
    · rcases eq_or_ne s [] with rfl | hne
      · obtain ⟨rfl, rfl⟩ : m = [] ∧ ms = [] := by simpa using hms.symm
        simp [hc]
      · rcases eq_or_ne ms [] with rfl | hms'
        · have hm : m ≠ [] := by
            rintro rfl
            exact hne (by simpa using hs)
          simpa [hc, hne, hm, List.getLast?_cons_of_ne_nil hne] using ih
        · simpa [hc, hne, List.getLast?_cons_of_ne_nil hne, List.getLast?_cons_of_ne_nil hms']
            using ih

theorem keptTokens_cons_of_notMem {d : Char} (skipEmpty : Bool) {s : StdString} (h : d ∉ s)
    (t : StdString) :
    keptTokens d skipEmpty (s ++ d :: t) =
      if skipEmpty && s == [] then keptTokens d skipEmpty t
      else s :: keptTokens d skipEmpty t := by
  rw [keptTokens, keptTokens, tokens_cons_of_notMem h]
  cases skipEmpty
  · simp
  · by_cases hs : s = [] <;> simp [hs]

/-- A delimiter closes the token in front of it: what is kept on both sides is kept of the whole. -/
theorem keptTokens_append_cons (d : Char) (skipEmpty : Bool) (s t : StdString) :
    keptTokens d skipEmpty (s ++ d :: t) =
      keptTokens d skipEmpty (s ++ [d]) ++ keptTokens d skipEmpty t := by
  have htokens : tokens d (s ++ d :: t) = tokens d (s ++ [d]) ++ tokens d t := by
    rw [tokens_append_cons, tokens_concat]
  unfold keptTokens
  split_ifs
  · rw [htokens, List.filter_append]
  · exact htokens

/-- The pieces of a string, from its tokens. -/
theorem splitOn_eq_tokens (d : Char) (s : StdString) :
    s.splitOn d = tokens d s ++ if s = [] ∨ s.getLast? = some d then [[]] else [] := by
  simp only [tokens, getLast?_splitOn]
  split_ifs with h
  · exact (List.dropLast_append_getLast? _ ((getLast?_splitOn d s).mpr h)).symm
  · simp

/-- The assignments of tokens, in order, up to the first that throws. -/
def assignAll {σ ε : Type} (assign : σ → StdString → Except ε σ) :
    List StdString → σ → σ × Option ε
  | [], it => (it, none)
  | item :: items, it =>
    match assign it item with
    | .ok it => assignAll assign items it
    | .error e => (it, some e)

theorem assignAll_backInserter (items : List StdString) (result : List StdString) :
    assignAll backInserter items result = (result ++ items, none) := by
  induction items generalizing result with
  | nil => simp [assignAll]
  | cons item items ih => simp [assignAll, backInserter, ih]

/-- The assignments of two lists of tokens in a row. -/
theorem assignAll_append {σ ε : Type} (assign : σ → StdString → Except ε σ)
    (items items' : List StdString) (it : σ) :
    assignAll assign (items ++ items') it =
      match assignAll assign items it with
      | (it, none) => assignAll assign items' it
      | (it, some e) => (it, some e) := by
  induction items generalizing it with
  | nil => rfl
  | cons item items ih =>
    rw [List.cons_append, assignAll, assignAll]
    cases assign it item with
    | ok it' => exact ih it'
    | error e => rfl

/-- The state and the exception that the assignments of tokens end with: those of the fold over all
tokens, or over the tokens before the first one whose assignment throws. -/
inductive Assigns {σ ε : Type} (assign : σ → StdString → Except ε σ) (it : σ) :
    List StdString → σ × Option ε → Prop
  | all {items it'} : items.foldlM assign it = .ok it' → Assigns assign it items (it', none)
  | thrown {before item after it' e} : before.foldlM assign it = .ok it' →
      assign it' item = .error e → Assigns assign it (before ++ item :: after) (it', some e)

/-- An assignment comes before the others. -/
theorem Assigns.cons {σ ε : Type} {assign : σ → StdString → Except ε σ} {it it' : σ}
    {item : StdString} {items : List StdString} {r : σ × Option ε} (h : assign it item = .ok it')
    (hr : Assigns assign it' items r) : Assigns assign it (item :: items) r := by
  have hfold : ∀ items : List StdString,
      (item :: items).foldlM assign it = items.foldlM assign it' := by
    intro items
    rw [List.foldlM_cons, h]
    rfl
  cases hr with
  | all hall => exact .all ((hfold _).trans hall)
  | @thrown before rest after _ _ hbefore he =>
    rw [← List.cons_append]
    exact .thrown ((hfold before).trans hbefore) he

theorem assigns_assignAll {σ ε : Type} (assign : σ → StdString → Except ε σ)
    (items : List StdString) (it : σ) : Assigns assign it items (assignAll assign items it) := by
  induction items generalizing it with
  | nil => exact .all rfl
  | cons item items ih =>
    rw [assignAll]
    cases h : assign it item with
    | ok it' => exact (ih it').cons h
    | error e =>
      rw [← List.nil_append (item :: items)]
      exact .thrown rfl h

section Loop

variable {σ ε : Type} (assign : σ → StdString → Except ε σ) (delim : Char) (skipEmpty : Bool)

/-- Reading on behind a delimiter. -/
theorem getline_of_mem {s t : StdString} (h : delim ∉ s) :
    getline ⟨s ++ delim :: t, false⟩ delim = some (s, ⟨t, false⟩) := by
  have hs : ∀ c ∈ s, (c != delim) = true := by
    intro c hc
    simpa using ne_of_mem_of_not_mem hc h
  simp [getline, List.dropWhile_append_of_pos hs, List.takeWhile_append_of_pos hs]

/-- Reading up to the end of the stream. -/
theorem getline_of_notMem {s : StdString} (h : delim ∉ s) :
    getline ⟨s, false⟩ delim = if s = [] then none else some (s, ⟨[], true⟩) := by
  have hs : s.dropWhile (· != delim) = [] :=
    List.dropWhile_eq_nil_iff.mpr fun c hc => by simpa using ne_of_mem_of_not_mem hc h
  simp [getline, hs]

@[simp] theorem splitLoop_eof (n : ℕ) (s : StdString) (it : σ) :
    splitLoop assign delim skipEmpty n ⟨s, true⟩ it = (it, none) := by
  cases n <;> simp [splitLoop, getline]

/-- The loop assigns the kept tokens of the rest of the stream, whenever it has enough rounds. -/
theorem splitLoop_eq_assignAll {n : ℕ} {s : StdString} (hn : s.length < n) (it : σ) :
    splitLoop assign delim skipEmpty n ⟨s, false⟩ it =
      assignAll assign (keptTokens delim skipEmpty s) it := by
  induction n generalizing s it with
  | zero => omega
  | succ n ih =>
    -- a round reads up to the next delimiter, or to the end of the stream
    by_cases h : delim ∈ s
    · obtain ⟨s, t, rfl, hs⟩ := List.eq_append_cons_of_mem h
      have ht : t.length < n := by
        simp only [List.length_append, List.length_cons] at hn
        omega
      rw [splitLoop, getline_of_mem delim hs, keptTokens_cons_of_notMem skipEmpty hs]
      dsimp only
      -- an empty token may be skipped; the rest of the stream is shorter
      split_ifs with hskip
      · exact ih ht it
      · rw [assignAll]
        cases assign it s with
        | ok it' => exact ih ht it'
        | error e => rfl
    · rw [splitLoop, getline_of_notMem delim h]
      rcases eq_or_ne s [] with rfl | hs
      · cases skipEmpty <;> simp [keptTokens, assignAll]
      · have hk : keptTokens delim skipEmpty s = [s] := by
          cases skipEmpty <;> simp [keptTokens, tokens_of_notMem h hs, hs]
        simp only [hs, if_false, hk, assignAll]
        cases assign it s <;> simp [hs]

/-- **The iterator overload assigns the tokens in order**, up to the first assignment that
throws. -/
theorem splitInto_eq_assignAll (input : StdString) (it : σ) :
    splitInto assign delim skipEmpty input it =
      assignAll assign (keptTokens delim skipEmpty input) it :=
  splitLoop_eq_assignAll assign delim skipEmpty (Nat.lt_succ_self _) it

/-- Cutting the input behind a delimiter leaves the iterator in the state to go on from. -/
theorem splitInto_append_cons (s t : StdString) (it : σ) :
    splitInto assign delim skipEmpty (s ++ delim :: t) it =
      match splitInto assign delim skipEmpty (s ++ [delim]) it with
      | (it, none) => splitInto assign delim skipEmpty t it
      | (it, some e) => (it, some e) := by
  simp only [splitInto_eq_assignAll]
  rw [keptTokens_append_cons, assignAll_append]

end Loop

/-- **The vector overload returns the tokens.** -/
theorem split_eq_keptTokens (input : StdString) (delim : Char) (skipEmpty : Bool) :
    split input delim skipEmpty = keptTokens delim skipEmpty input := by
  rw [split, splitInto_eq_assignAll, assignAll_backInserter, List.nil_append]

@[simp] theorem split_eq_tokens (input : StdString) (delim : Char) :
    split input delim false = tokens delim input := by
  rw [split_eq_keptTokens, keptTokens, if_neg Bool.false_ne_true]

/-- **Splitting is a homomorphism at every delimiter**: the tokens of the input up to the delimiter,
and with it, are followed by those of the rest. -/
theorem split_append_cons (s t : StdString) (delim : Char) (skipEmpty : Bool) :
    split (s ++ delim :: t) delim skipEmpty =
      split (s ++ [delim]) delim skipEmpty ++ split t delim skipEmpty := by
  simp only [split_eq_keptTokens]
  exact keptTokens_append_cons delim skipEmpty s t

/-- **The overload for iterators folds over the tokens**: it assigns those that the overload for
vectors returns, in order, up to the first assignment that throws, and more rounds change nothing.
The tokens are the pieces between delimiters, and empty tokens are skipped by removing them. -/
theorem split_assigns {σ ε : Type} (assign : σ → StdString → Except ε σ) (delim : Char)
    (skipEmpty : Bool) (input : StdString) (it : σ) :
    Assigns assign it (split input delim skipEmpty)
        (splitInto assign delim skipEmpty input it) ∧
      (∀ n > input.length, splitLoop assign delim skipEmpty n ⟨input, false⟩ it =
        splitInto assign delim skipEmpty input it) ∧
      split input delim skipEmpty = keptTokens delim skipEmpty input ∧
      split input delim true = (split input delim false).filter (· ≠ []) := by
  refine ⟨?_, ?_, split_eq_keptTokens input delim skipEmpty, ?_⟩
  · rw [split_eq_keptTokens, splitInto_eq_assignAll]
    exact assigns_assignAll assign _ it
  · intro n hn
    rw [splitLoop_eq_assignAll assign delim skipEmpty hn, splitInto_eq_assignAll]
  · rw [split_eq_keptTokens, split_eq_tokens, keptTokens, if_pos rfl]

end RcppUtils
