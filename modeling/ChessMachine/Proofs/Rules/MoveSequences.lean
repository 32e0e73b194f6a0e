import ChessMachine.Proofs.Rules.Distinct
import ChessMachine.Proofs.Rules.Overflow
import ChessMachine.Proofs.Rules.Soundness

/-!
# Counting sequences of legal moves

Whether the moves of the last ply are played or only counted, and whether the counts are listed by
first move or not, the count is the same. It is the number of sequences of legal moves.

## Main definitions

* `Position.legalSequences` — the sequences of legal moves.

## Main results

* `Position.perft_eq_plain`, `Position.total_splitPerft` — all ways to count agree.
* `Position.mem_legalSequences`, `Position.nodup_legalSequences` — each of them is listed, once.
* `Position.counts_splitOver` — what stands behind each first move.
* `Position.perft_eq_number_of_sequences` — what is counted and what is listed.
-/
namespace ChessMachine

namespace Position

variable {p q : Position} {m : Move} {moves ms : List Move} {bulk : Bool} {depth n : Nat}
  {count : Position → Except Failure Nat}

/-! ## All ways to count -/

/-- A legal move can be played: it was played to find it legal. -/
theorem exists_play_of_mem_legalMoves (legal : p.legalMoves = .ok moves) (mem : m ∈ moves) :
    ∃ q, p.play m = .ok q := by
  obtain ⟨q, played, -⟩ := exists_play_of_isLegal (of_mem_legalMoves legal mem).2
  exact ⟨q, played⟩

theorem countAfter_of_play (played : p.play m = .ok q) : p.countAfter count m = count q := by
  rw [countAfter, played]
  rfl

/-- If nothing follows any of the moves, each of them counts once. -/
theorem sumOver_of_play (all : ∀ m ∈ moves, ∃ q, p.play m = .ok q) :
    p.sumOver (perft bulk 0) moves = .ok moves.length := by
  induction moves with
  | nil => rfl
  | cons m rest ih =>
    obtain ⟨q, played⟩ := all m List.mem_cons_self
    rw [sumOver_cons, countAfter_of_play played,
      ih fun k hk => all k (List.mem_cons_of_mem m hk), List.length_cons, Nat.add_comm]
    rfl

/-- If the legal moves cannot be listed, then they cannot be counted. -/
theorem perft_of_error {e : Failure} (h : p.legalMoves = .error e) :
    p.perft bulk (depth + 1) = .error e := by
  rw [perft, h]
  rfl

/-- Counting the moves of the last ply gives what playing them gives. -/
theorem perft_succ (legal : p.legalMoves = .ok moves) :
    p.perft bulk (depth + 1) = p.sumOver (perft bulk depth) moves := by
  have step : p.perft bulk (depth + 1) =
      if bulk && depth = 0 then .ok moves.length else p.sumOver (perft bulk depth) moves := by
    rw [perft, legal]
    rfl
  rw [step]
  split
  · rename_i last
    obtain rfl : depth = 0 := by simpa using (Bool.and_eq_true_iff.1 last).2
    exact (sumOver_of_play fun m hm => exists_play_of_mem_legalMoves legal hm).symm
  · rfl

/-- Counting in bulk gives the same number, and fails in the same way. -/
theorem perft_eq_plain (bulk : Bool) (depth : Nat) (p : Position) :
    p.perft bulk depth = p.perft false depth := by
  induction depth generalizing p with
  | zero => rfl
  | succ depth ih =>
    cases legal : p.legalMoves with
    | error e => rw [perft_of_error legal, perft_of_error legal]
    | ok moves => rw [perft_succ legal, perft_succ legal, funext ih]

theorem splitOver_cons (p : Position) (count : Position → Except Failure Nat) (m : Move)
    (rest : List Move) : p.splitOver count (m :: rest) =
      match p.countAfter count m with
      | .error e => { total := .error e }
      | .ok here =>
        let others := p.splitOver count rest
        { counts := (m, here) :: others.counts, total := others.total.map (here + ·) } := rfl

/-- The counts by first move add up as if they were not listed. -/
theorem total_splitOver (p : Position) (count : Position → Except Failure Nat)
    (moves : List Move) : (p.splitOver count moves).total = p.sumOver count moves := by
  induction moves with
  | nil => rfl
  | cons m rest ih =>
    rw [splitOver_cons, sumOver_cons, ← ih]
    cases p.countAfter count m with
    | error e => rfl
    | ok here =>
      show Except.map _ _ = _
      cases (p.splitOver count rest).total <;> rfl

theorem splitPerft_succ (legal : p.legalMoves = .ok moves) :
    p.splitPerft bulk (depth + 1) = p.splitOver (perft bulk depth) moves := by
  rw [splitPerft, legal]

/-- The total of the split count is the plain one. -/
theorem total_splitPerft (bulk : Bool) (depth : Nat) (p : Position) :
    (p.splitPerft bulk depth).total = p.perft bulk depth := by
  cases depth with
  | zero => rfl
  | succ depth =>
    cases legal : p.legalMoves with
    | error e => rw [splitPerft, legal, perft_of_error legal]
    | ok moves => rw [splitPerft_succ legal, total_splitOver, perft_succ legal]

/-- Where all counts are found, they are listed in the order of the moves. -/
theorem counts_splitOver (h : p.sumOver count moves = .ok n) :
    (p.splitOver count moves).counts.map Prod.fst = moves ∧
      ((p.splitOver count moves).counts.map Prod.snd).foldr (· + ·) 0 = n ∧
      ∀ line ∈ (p.splitOver count moves).counts, p.countAfter count line.1 = .ok line.2 := by
  induction moves generalizing n with
  | nil => exact ⟨rfl, Except.ok.inj h, List.forall_mem_nil _⟩
  | cons m rest ih =>
    rw [sumOver_cons] at h
    obtain ⟨here, counted, h⟩ := bind_eq_ok_iff.1 h
    obtain ⟨others, summed, h⟩ := bind_eq_ok_iff.1 h
    obtain rfl := Except.ok.inj h
    obtain ⟨firsts, sum, all⟩ := ih summed
    rw [splitOver_cons, counted]
    exact ⟨congrArg (m :: ·) firsts, congrArg (here + ·) sum,
      List.forall_mem_cons.2 ⟨counted, all⟩⟩

/-! ## Sequences -/

/-- The sequences of legal moves of a given length. -/
def legalSequences : (depth : Nat) → Position → List (List Move)
  | 0, _ => [[]]
  | depth + 1, p => (p.legalMoves.toOption.getD []).flatMap fun m =>
    (p.play m).toOption.elim [] fun q => (legalSequences depth q).map (m :: ·)

/-- The sequences that start with a move. -/
theorem mem_sequencesFrom {m : Move} : ms ∈ ((p.play m).toOption.elim [] fun q =>
      (q.legalSequences depth).map (m :: ·)) ↔
    ∃ q rest, p.play m = .ok q ∧ rest ∈ q.legalSequences depth ∧ m :: rest = ms := by
  cases p.play m with
  | error e => simp [Except.toOption]
  | ok q => simp [Except.toOption]

theorem mem_legalSequences_succ : ms ∈ p.legalSequences (depth + 1) ↔
    ∃ moves m q rest, p.legalMoves = .ok moves ∧ m ∈ moves ∧ p.play m = .ok q ∧
      rest ∈ q.legalSequences depth ∧ m :: rest = ms := by
  rw [legalSequences, List.mem_flatMap]
  simp only [mem_sequencesFrom]
  cases p.legalMoves with
  | error e => simp [Except.toOption]
  | ok moves => simp [Except.toOption]

/-- The sequences of a length are those that can be played to the end. -/
theorem mem_legalSequences :
    ms ∈ p.legalSequences depth ↔ ms.length = depth ∧ ∃ q, LegalRun p ms q := by
  induction depth generalizing p ms with
  | zero =>
    rw [legalSequences, List.mem_singleton, List.length_eq_zero_iff]
    exact ⟨fun empty => ⟨empty, p, empty ▸ .nil p⟩, fun ⟨empty, _⟩ => empty⟩
  | succ depth ih =>
    rw [mem_legalSequences_succ]
    constructor
    · rintro ⟨moves, m, q, rest, legal, mem, played, later, rfl⟩
      obtain ⟨length, r, run⟩ := ih.1 later
      exact ⟨congrArg Nat.succ length, r, .cons legal mem played run⟩
    · rintro ⟨length, r, run⟩
      cases run with
      | nil => cases length
      | cons legal mem played run =>
        exact ⟨_, _, _, _, legal, mem, played, ih.2 ⟨Nat.succ.inj length, r, run⟩, rfl⟩

theorem nodup_legalMoves (legal : p.legalMoves = .ok moves) : moves.Nodup := by
  obtain ⟨isLegal, -, rfl⟩ := exists_of_legalMoves legal
  exact p.nodup_pseudoLegalMoves.sublist List.filter_sublist

/-- No sequence is listed twice, as no move is. -/
theorem nodup_legalSequences (depth : Nat) (p : Position) : (p.legalSequences depth).Nodup := by
  induction depth generalizing p with
  | zero => exact List.nodup_singleton []
  | succ depth ih =>
    rw [legalSequences]
    refine List.nodup_flatMap.2 ⟨fun m _ => ?_, ?_⟩
    · cases p.play m with
      | error e => exact List.nodup_nil
      | ok q => exact (ih q).map fun _ _ same => (List.cons.inj same).2
    · have distinct : (p.legalMoves.toOption.getD []).Nodup := by
        cases legal : p.legalMoves with
        | error e => exact List.nodup_nil
        | ok moves => exact nodup_legalMoves legal
      refine distinct.imp fun {m k} apart ms from_m from_k => ?_
      obtain ⟨_, _, -, -, rfl⟩ := mem_sequencesFrom.1 from_m
      obtain ⟨_, _, -, -, same⟩ := mem_sequencesFrom.1 from_k
      exact apart (List.cons.inj same).1.symm

/-- What is counted are the sequences. -/
theorem length_legalSequences (h : p.perft bulk depth = .ok n) :
    (p.legalSequences depth).length = n := by
  rw [perft_eq_plain] at h
  induction depth generalizing p n with
  | zero => exact Except.ok.inj h
  | succ depth ih =>
    obtain ⟨moves, legal⟩ : ∃ moves, p.legalMoves = .ok moves := by
      obtain ⟨moves, legal, -⟩ := bind_eq_ok_iff.1 h
      exact ⟨moves, legal⟩
    rw [perft_succ legal] at h
    obtain ⟨value, all, rfl⟩ := exists_of_sumOver h
    have each : ∀ m ∈ moves, ((p.play m).toOption.elim [] fun q =>
        (q.legalSequences depth).map (m :: ·)).length = value m := by
      intro m mem
      obtain ⟨q, played⟩ := exists_play_of_mem_legalMoves legal mem
      have counted := all m mem
      rw [countAfter_of_play played] at counted
      rw [played]
      exact (List.length_map ..).trans (ih counted)
    rw [legalSequences, legal, List.length_flatMap, List.sum_eq_foldr]
    exact congrArg (List.foldr (· + ·) 0) (List.map_congr_left each)

/-- All ways to count agree, whether they fail or not. What they find is the number of sequences of
legal moves, and the lines of a count by first move, one for each legal move in its order, add up
to it. -/
theorem perft_eq_number_of_sequences (p : Position) (depth : Nat) :
    (∀ bulk, p.perft bulk depth = p.perft true depth ∧
      (p.splitPerft bulk depth).total = p.perft true depth) ∧
    ∀ n, p.perft true depth = .ok n →
      (∃ sequences : List (List Move), sequences.Nodup ∧ sequences.length = n ∧
        ∀ ms, ms ∈ sequences ↔ ms.length = depth ∧ ∃ q, LegalRun p ms q) ∧
      ∀ bulk, depth ≠ 0 → ∃ moves, ∃ counts : List (Move × Nat), p.legalMoves = .ok moves ∧
        counts.map Prod.fst = moves ∧ (counts.map Prod.snd).foldr (· + ·) 0 = n ∧
        (∀ line ∈ counts, ∃ q, p.play line.1 = .ok q ∧
          q.perft true (depth - 1) = .ok line.2) ∧
        (p.splitPerft bulk depth).printed
          = String.join (counts.map fun line => Split.line line.1 line.2) := by
  have same (bulk : Bool) : p.perft bulk depth = p.perft true depth :=
    (perft_eq_plain bulk depth p).trans (perft_eq_plain true depth p).symm
  refine ⟨fun bulk => ⟨same bulk, (total_splitPerft bulk depth p).trans (same bulk)⟩, ?_⟩
  intro n counted
  refine ⟨⟨p.legalSequences depth, nodup_legalSequences depth p, length_legalSequences counted,
    fun ms => mem_legalSequences⟩, fun bulk further => ?_⟩
  obtain ⟨depth, rfl⟩ := Nat.exists_eq_succ_of_ne_zero further
  rw [← same bulk] at counted
  obtain ⟨moves, legal, -⟩ := bind_eq_ok_iff.1 counted
  rw [perft_succ legal] at counted
  obtain ⟨firsts, sum, all⟩ := counts_splitOver counted
  refine ⟨moves, _, legal, firsts, sum, fun line there => ?_, ?_⟩
  · obtain ⟨q, played, counted⟩ := bind_eq_ok_iff.1 (all line there)
    rw [perft_eq_plain, ← perft_eq_plain true] at counted
    exact ⟨q, Failure.liftM_overflow_eq_ok_iff.1 played, counted⟩
  · rw [splitPerft_succ legal]
    rfl

end Position

end ChessMachine
