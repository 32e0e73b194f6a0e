import ChessMachine.Engine.Session

/-!
# Commands among the arguments

Splitting takes the longest run of words that is not rejected, whatever a run reads as. Nothing is
lost, repeated or reordered. A loop that tries the runs one by one, with a number for each end of
the run, comes to the same parts, and cannot go on for ever: after a rejected run the end moves
back, and it returns to the last word only when the start has moved on.

## Main definitions

* `Slice.IsGreedy` — a part is the longest run that is not rejected, or a word that starts none.
* `Scan`, `Scan.turn`, `Scan.Ends` — the loop.

## Main results

* `Scan.ends_split` — the loop ends with the parts, after a bounded number of turns.
* `Slice.split_covers` — the parts cover the arguments, and each of them is greedy.
-/
namespace ChessMachine

variable {α : Type} {read : List String → Reading α}

namespace Slice

variable {slice : Slice α} {run rest remaining args : List String} {first : String} {more k : Nat}

/-! ## One run -/

theorem words_of_ofRun? (h : ofRun? read run = some slice) : slice.words = run := by
  unfold ofRun? at h
  split at h <;> cases h <;> rfl

/-- Something is made of every run but the rejected ones. -/
theorem ofRun?_eq_none_iff : ofRun? read run = none ↔ read run = .rejected := by
  unfold ofRun?
  split <;> simp_all

/-- The run that is found is not rejected, and the longer ones are. -/
theorem of_longest?_eq_some (h : longest? read first rest more = some (slice, k)) :
    k ≤ more ∧ ofRun? read (first :: rest.take k) = some slice ∧
      ∀ j, k < j → j ≤ more → ofRun? read (first :: rest.take j) = none := by
  induction more with
  | zero =>
    obtain ⟨_, found, same⟩ := Option.map_eq_some_iff.1 h
    obtain ⟨rfl, rfl⟩ := Prod.mk.inj same
    exact ⟨Nat.le_refl 0, found, by omega⟩
  | succ more ih =>
    rw [longest?] at h
    split at h
    · rename_i found
      obtain ⟨rfl, rfl⟩ := Prod.mk.inj (Option.some.inj h)
      exact ⟨Nat.le_refl _, found, by omega⟩
    · rename_i rejected
      obtain ⟨le, found, longer⟩ := ih h
      refine ⟨Nat.le_succ_of_le le, found, fun j lt le => ?_⟩
      rcases Nat.le_succ_iff.1 le with le | rfl
      · exact longer j lt le
      · exact rejected

/-- If no run is found, then all of them are rejected. -/
theorem of_longest?_eq_none (h : longest? read first rest more = none) :
    ∀ j ≤ more, ofRun? read (first :: rest.take j) = none := by
  induction more with
  | zero =>
    intro j le
    obtain rfl := Nat.le_zero.1 le
    exact Option.map_eq_none_iff.1 h
  | succ more ih =>
    rw [longest?] at h
    split at h
    · cases h
    · rename_i rejected
      intro j le
      rcases Nat.le_succ_iff.1 le with le | rfl
      · exact ih h j le
      · exact rejected

/-! ## Parts -/

/-- What is made of the first of some words: the longest run at their start that is not rejected,
or the first word alone if all runs are. -/
inductive IsGreedy (read : List String → Reading α) (remaining : List String) : Slice α → Prop where
  | command {run : List String} {a : α} (here : run <+: remaining) (nonempty : run ≠ [])
    (reads : read run = .command a)
    (longest : ∀ longer, longer <+: remaining → run.length < longer.length →
      read longer = .rejected) : IsGreedy read remaining (command run a)
  | help {run : List String} (here : run <+: remaining) (nonempty : run ≠ [])
    (reads : read run = .help)
    (longest : ∀ longer, longer <+: remaining → run.length < longer.length →
      read longer = .rejected) : IsGreedy read remaining (help run)
  | skipped {word : String} (here : [word] <+: remaining)
    (none : ∀ run, run <+: remaining → run ≠ [] → read run = .rejected) :
    IsGreedy read remaining (skipped word)

/-- A run of which something is made is the greedy choice if all longer ones are rejected. -/
theorem isGreedy_of_ofRun? (here : run <+: remaining) (nonempty : run ≠ [])
    (found : ofRun? read run = some slice)
    (longest : ∀ longer, longer <+: remaining → run.length < longer.length →
      ofRun? read longer = none) : slice.IsGreedy read remaining := by
  have rejected (longer : List String) (isPrefix : longer <+: remaining)
      (lt : run.length < longer.length) : read longer = .rejected :=
    ofRun?_eq_none_iff.1 (longest longer isPrefix lt)
  unfold ofRun? at found
  split at found
  · rename_i reads
    cases found
    exact .command here nonempty reads rejected
  · rename_i reads
    cases found
    exact .help here nonempty reads rejected
  · cases found

/-- The runs at the start of some words. -/
theorem exists_eq_cons_take (isPrefix : run <+: first :: rest) (nonempty : run ≠ []) :
    ∃ j ≤ rest.length, run.length = j + 1 ∧ run = first :: rest.take j := by
  obtain ⟨head, tail, rfl⟩ := List.exists_cons_of_ne_nil nonempty
  obtain ⟨rfl, behind⟩ := List.cons_prefix_cons.1 isPrefix
  exact ⟨tail.length, behind.length_le, rfl, congrArg _ (List.prefix_iff_eq_take.1 behind)⟩

/-- Behind a run that was found, the rest of the words is split. -/
theorem split_of_found (found : longest? read first rest rest.length = some (slice, k)) :
    split read (first :: rest) = slice :: split read (rest.drop k) := by
  rw [split, found]

/-- A word that begins no run is skipped alone. -/
theorem split_of_none (none : longest? read first rest rest.length = none) :
    split read (first :: rest) = skipped first :: split read rest := by
  rw [split, none]

/-- Nothing is lost or repeated. -/
theorem flatMap_words_split (read : List String → Reading α) (args : List String) :
    (split read args).flatMap words = args := by
  induction args using split.induct read with
  | case1 => rw [split, List.flatMap_nil]
  | case2 first rest slice k found ih =>
    obtain ⟨-, taken, -⟩ := of_longest?_eq_some found
    rw [split_of_found found, List.flatMap_cons, ih, words_of_ofRun? taken, List.cons_append,
      List.take_append_drop]
  | case3 first rest none ih =>
    rw [split_of_none none, List.flatMap_cons, ih]
    rfl

/-- Each part is the longest run, or a word that starts none. -/
theorem isGreedy_of_split {before after : List (Slice α)}
    (h : split read args = before ++ slice :: after) :
    slice.IsGreedy read ((slice :: after).flatMap words) := by
  induction args using split.induct read generalizing before with
  | case1 =>
    rw [split] at h
    exact absurd h.symm (by simp)
  | case2 first rest found k taken ih =>
    have whole := flatMap_words_split read (first :: rest)
    rw [split_of_found taken] at h whole
    cases before with
    | nil =>
      obtain ⟨rfl, rfl⟩ := List.cons.inj h
      obtain ⟨le, reads, longer⟩ := of_longest?_eq_some taken
      rw [whole]
      refine isGreedy_of_ofRun? (List.cons_prefix_cons.2 ⟨rfl, List.take_prefix k rest⟩)
        (List.cons_ne_nil _ _) reads fun run isPrefix lt => ?_
      obtain ⟨j, bound, length, rfl⟩ := exists_eq_cons_take isPrefix
        (List.ne_nil_of_length_pos (Nat.zero_lt_of_lt lt))
      rw [length, List.length_cons, List.length_take, Nat.min_eq_left le] at lt
      exact longer j (by omega) bound
    | cons _ before => exact ih (List.cons.inj h).2
  | case3 first rest none ih =>
    have whole := flatMap_words_split read (first :: rest)
    rw [split_of_none none] at h whole
    cases before with
    | nil =>
      obtain ⟨rfl, rfl⟩ := List.cons.inj h
      rw [whole]
      refine .skipped (List.prefix_append [first] rest) fun run isPrefix nonempty => ?_
      obtain ⟨j, bound, -, rfl⟩ := exists_eq_cons_take isPrefix nonempty
      exact ofRun?_eq_none_iff.1 (of_longest?_eq_none none j bound)
    | cons _ before => exact ih (List.cons.inj h).2

end Slice

/-! ## The loop -/

/-- How far a loop over arguments has come: the parts that are done, and the ends of the run of
words that is tried next. -/
structure Scan (α : Type) where
  done : List (Slice α) := []
  start : Nat := 0
  stop : Nat

namespace Scan

/-- Tries a run. If it is rejected, it is shortened by a word, unless it is a single one. -/
def turn (read : List String → Reading α) (args : List String) (s : Scan α) : Scan α :=
  let run := (args.take s.stop).drop s.start
  match Slice.ofRun? read run with
  | some slice => ⟨s.done ++ [slice], s.stop, args.length⟩
  | none =>
    if s.stop = s.start + 1 then ⟨s.done ++ run.map .skipped, s.start + 1, args.length⟩
    else { s with stop := s.stop - 1 }

/-- The loop is over after some turns, with these parts. It goes on while there is a run to try. -/
inductive Ends (read : List String → Reading α) (args : List String) :
    Scan α → (turns : Nat) → List (Slice α) → Prop where
  | finish {s : Scan α} (stop : ¬ s.start < s.stop) : Ends read args s 0 s.done
  | turn {s : Scan α} {turns : Nat} {slices : List (Slice α)} (more : s.start < s.stop)
    (rest : Ends read args (s.turn read args) turns slices) : Ends read args s (turns + 1) slices

variable {args rest : List String} {first : String} {s : Scan α} {start n n' k : Nat}
  {done slices slices' : List (Slice α)} {slice : Slice α}

/-- There is one way for the loop to go. -/
theorem Ends.unique (h : Ends read args s n slices) (h' : Ends read args s n' slices') :
    n' = n ∧ slices' = slices := by
  induction h generalizing n' with
  | finish stop =>
    cases h' with
    | finish => exact ⟨rfl, rfl⟩
    | turn more => exact absurd more stop
  | turn more _ ih =>
    cases h' with
    | finish stop => exact absurd more stop
    | turn _ rest' =>
      obtain ⟨rfl, rfl⟩ := ih rest'
      exact ⟨rfl, rfl⟩

/-- The run of `first` and `k` words of the rest. -/
theorem drop_take_eq (here : args.drop start = first :: rest) (k : Nat) :
    (args.take (start + k + 1)).drop start = first :: rest.take k := by
  rw [List.drop_take, here, Nat.add_assoc, Nat.add_sub_cancel_left, List.take_succ_cons]

/-- Rejected runs are shortened, one word at a time. -/
theorem ends_of_rejected (here : args.drop start = first :: rest) (d : Nat)
    (rejected : ∀ j, k < j → j ≤ k + d → Slice.ofRun? read (first :: rest.take j) = none)
    (ends : Ends read args ⟨done, start, start + k + 1⟩ n slices) :
    Ends read args ⟨done, start, start + (k + d) + 1⟩ (n + d) slices := by
  induction d with
  | zero => exact ends
  | succ d ih =>
    have shorter := ih fun j lt le => rejected j lt (Nat.le_succ_of_le le)
    refine .turn (by dsimp only; omega) ?_
    have none := rejected (k + (d + 1)) (by omega) (Nat.le_refl _)
    have long : start + (k + (d + 1)) + 1 ≠ start + 1 := by omega
    rw [turn]
    simp only [drop_take_eq here, none, if_neg long]
    exact shorter

/-- A run that is not rejected is a part. -/
theorem ends_of_taken (here : args.drop start = first :: rest)
    (taken : Slice.ofRun? read (first :: rest.take k) = some slice)
    (ends : Ends read args ⟨done ++ [slice], start + k + 1, args.length⟩ n slices) :
    Ends read args ⟨done, start, start + k + 1⟩ (n + 1) slices := by
  refine .turn (by dsimp only; omega) ?_
  rw [turn]
  simp only [drop_take_eq here, taken]
  exact ends

/-- A word that is rejected alone is a part. -/
theorem ends_of_skipped (here : args.drop start = first :: rest)
    (rejected : Slice.ofRun? read [first] = none)
    (ends : Ends read args ⟨done ++ [.skipped first], start + 1, args.length⟩ n slices) :
    Ends read args ⟨done, start, start + 1⟩ (n + 1) slices := by
  refine .turn (by dsimp only; omega) ?_
  have run : (args.take (start + 1)).drop start = [first] := drop_take_eq here 0
  rw [turn]
  simp only [run, rejected, if_true]
  exact ends

/-- With one word more there are at least as many more turns as there are runs of it. -/
theorem two_mul_le {turns left count : Nat} (few : 2 * turns ≤ left * (left + 1))
    (lt : left < count) : 2 * (turns + 1 + left) ≤ count * (count + 1) :=
  calc 2 * (turns + 1 + left)
    _ ≤ left * (left + 1) + 2 * (left + 1) := by omega
    _ = (left + 1) * (left + 1 + 1) := by rw [← Nat.add_mul, Nat.mul_comm]
    _ ≤ count * (count + 1) := Nat.mul_le_mul lt (Nat.succ_le_succ lt)

/-- From any word on the loop goes as splitting does, and tries each run at most once. -/
theorem ends_split_drop {remaining : List String} (here : args.drop start = remaining)
    (length : start + remaining.length = args.length) (done : List (Slice α)) :
    ∃ turns, 2 * turns ≤ remaining.length * (remaining.length + 1) ∧
      Ends read args ⟨done, start, args.length⟩ turns (done ++ Slice.split read remaining) := by
  -- between two parts the start is at the remaining words and the end behind the last of them
  induction remaining using Slice.split.induct read generalizing start done with
  | case1 =>
    refine ⟨0, Nat.le_refl 0, ?_⟩
    rw [Slice.split, List.append_nil, ← length]
    exact .finish (Nat.lt_irrefl start)
  | case2 first rest slice k found ih =>
    obtain ⟨bound, taken, longer⟩ := Slice.of_longest?_eq_some found
    rw [List.length_cons] at length
    have behind : args.drop (start + k + 1) = rest.drop k := by
      rw [Nat.add_assoc, ← List.drop_drop, here, List.drop_succ_cons]
    obtain ⟨turns, few, ends⟩ := ih behind (by rw [List.length_drop]; omega) (done ++ [slice])
    rw [List.length_drop] at few
    refine ⟨turns + 1 + (rest.length - k), two_mul_le few (by rw [List.length_cons]; omega), ?_⟩
    have last : args.length = start + (k + (rest.length - k)) + 1 := by omega
    rw [List.append_assoc, List.singleton_append, ← Slice.split_of_found found] at ends
    have all := ends_of_rejected here (rest.length - k) (fun j lt le => longer j lt (by omega))
      (ends_of_taken here taken ends)
    rwa [← last] at all
  | case3 first rest none ih =>
    have rejected := Slice.of_longest?_eq_none none
    rw [List.length_cons] at length
    have behind : args.drop (start + 1) = rest := by
      rw [← List.drop_drop, here, List.drop_succ_cons, List.drop_zero]
    obtain ⟨turns, few, ends⟩ := ih behind (by omega) (done ++ [.skipped first])
    refine ⟨turns + 1 + rest.length, two_mul_le few (by rw [List.length_cons]; omega), ?_⟩
    have last : args.length = start + (0 + rest.length) + 1 := by omega
    rw [List.append_assoc, List.singleton_append, ← Slice.split_of_none none] at ends
    have all := ends_of_rejected (k := 0) here rest.length (fun j _ le => rejected j (by omega))
      (ends_of_skipped here (rejected 0 (Nat.zero_le _)) ends)
    rwa [← last] at all

/-- The loop ends with the parts of the arguments. -/
theorem ends_split (read : List String → Reading α) (args : List String) :
    ∃ turns, 2 * turns ≤ args.length * (args.length + 1) ∧
      Ends read args ⟨[], 0, args.length⟩ turns (Slice.split read args) :=
  ends_split_drop List.drop_zero (Nat.zero_add _) []

end Scan

namespace Slice

/-- The loop over the arguments ends, in one way, after no more turns than there are runs of words.
The parts are consecutive and cover the arguments in order. A run that is taken is the longest one
at the start of the remaining words that is not rejected, and a word is skipped, alone, only if
every run that starts with it is. -/
theorem split_covers (read : List String → Reading α) (args : List String) :
    (∃ turns, 2 * turns ≤ args.length * (args.length + 1) ∧
      ∀ n slices, Scan.Ends read args ⟨[], 0, args.length⟩ n slices ↔
        n = turns ∧ slices = split read args) ∧
    (split read args).flatMap words = args ∧
    ∀ before slice after, split read args = before ++ slice :: after →
      slice.IsGreedy read ((slice :: after).flatMap words) := by
  refine ⟨?_, flatMap_words_split read args, fun _ _ _ => isGreedy_of_split⟩
  obtain ⟨turns, few, ends⟩ := Scan.ends_split read args
  refine ⟨turns, few, fun n slices => ⟨ends.unique, ?_⟩⟩
  rintro ⟨rfl, rfl⟩
  exact ends

/-- A depth goes with the word before it, and is no command by itself. -/
theorem split_covers_perft :
    split Session.readWords ["perft", "2", "fen", "2"] =
        [.command ["perft", "2"] (.perft 2), .command ["fen"] .fen, .skipped "2"] ∧
      (Slice.command ["perft", "2"] (.perft 2)).IsGreedy Session.readWords
        ["perft", "2", "fen", "2"] ∧
      (Slice.skipped "2").IsGreedy Session.readWords ["2"] := by
  obtain ⟨-, -, greedy⟩ := split_covers Session.readWords ["perft", "2", "fen", "2"]
  have parts : split Session.readWords ["perft", "2", "fen", "2"] =
      [.command ["perft", "2"] (.perft 2), .command ["fen"] .fen, .skipped "2"] := by
    have perft : longest? Session.readWords "perft" ["2", "fen", "2"] 3 =
        some (.command ["perft", "2"] (.perft 2), 1) := rfl
    have fen : longest? Session.readWords "fen" ["2"] 1 = some (.command ["fen"] .fen, 0) := rfl
    have number : longest? Session.readWords "2" [] 0 = none := rfl
    rw [split_of_found perft, List.drop_succ_cons, List.drop_zero, split_of_found fen,
      List.drop_zero, split_of_none number, split]
  refine ⟨parts, greedy [] _ _ parts, ?_⟩
  exact greedy [.command ["perft", "2"] (.perft 2), .command ["fen"] .fen] _ [] parts

end Slice

end ChessMachine
