import ChessMachine.Proofs.Rules.FewPieces
import ChessMachine.Proofs.Search.Minimax

/-!
# Forced mates

The minimax score to some depth is that of a checkmate exactly if that mate can be forced within as
many plies. The score is also the greatest that an evaluation can have, so the pieces have to be few
and of moderate value; then only a checkmate reaches it.

## Main definitions

* `Position.Checkmated`, `Position.Forces` — checkmate, and a mate that can be forced.
* `Position.Explorable` — all positions within some plies have their legal moves.
* `Position.TellsMates` — the minimax score is that of a checkmate only if it can be forced.

## Main results

* `Position.Scored.best_iff`, `Position.Scored.worst_iff` — when the best of some scores is that of
  a checkmate.
* `Position.tellsMates` — scores of checkmates come from forced mates only.
* `Position.Sound.explorable` — few pieces always have their legal moves.
-/
namespace ChessMachine

namespace Color

theorem gain_mated_opponent (c : Color) : c.gain (Score.mated c.opponent) = Score.bound := by
  cases c <;> rfl

theorem mated_injective {c d : Color} (h : Score.mated c = Score.mated d) : c = d := by
  cases c <;> cases d <;> first | rfl | exact absurd h (by decide)

theorem draw_ne_mated (c : Color) : Score.draw ≠ Score.mated c := by cases c <;> decide

end Color

namespace Position

/-! ## Forced mates -/

/-- The side to move is in check and has no move. -/
def Checkmated (p : Position) : Prop := p.inCheck p.toMove = .ok true ∧ p.legalMoves = .ok []

/-- Within `n` plies `c` can force checkmate of its opponent. -/
def Forces (c : Color) : (n : Nat) → Position → Prop
  | 0, p => p.toMove = c.opponent ∧ p.Checkmated
  | n + 1, p =>
    (p.toMove = c.opponent ∧ p.Checkmated) ∨
    (p.toMove = c ∧ ∃ moves, p.legalMoves = .ok moves ∧
      ∃ m ∈ moves, ∃ q, p.play m = .ok q ∧ Forces c n q) ∨
    (p.toMove = c.opponent ∧ ∃ moves, p.legalMoves = .ok moves ∧ moves ≠ [] ∧
      ∀ m ∈ moves, ∃ q, p.play m = .ok q ∧ Forces c n q)

/-- Every position that legal moves reach within `n` plies has its legal moves, which are neither
too many nor end the counters. -/
def Explorable (p : Position) (n : Nat) : Prop :=
  ∀ ms q, ms.length ≤ n → LegalRun p ms q → ∃ moves, q.legalMoves = .ok moves

variable {w : Weights} {p q : Position} {depth n : Nat} {s : Score} {m : Move}
  {rest moves : List Move} {c : Color}

theorem Explorable.exists_legalMoves (explorable : p.Explorable n) :
    ∃ moves, p.legalMoves = .ok moves := explorable [] p (Nat.zero_le n) (.nil p)

/-- A legal move leads to a position that can be explored one ply less. -/
theorem Explorable.of_play (explorable : p.Explorable (n + 1)) (legal : p.legalMoves = .ok moves)
    (mem : m ∈ moves) (played : p.play m = .ok q) : q.Explorable n :=
  fun ms r le run => explorable (m :: ms) r (Nat.succ_le_succ le) (.cons legal mem played run)

/-- Where there is no move, only a checkmate on the board is forced. -/
theorem forces_of_no_moves (none : p.legalMoves = .ok []) :
    p.Forces c n ↔ p.toMove = c.opponent ∧ p.inCheck p.toMove = .ok true := by
  cases n with
  | zero => simp only [Forces, Checkmated, none, and_true]
  | succ n =>
    rw [Forces, Checkmated]
    constructor
    · rintro (⟨turn, check, -⟩ | ⟨-, moves, legal, m, mem, -⟩ | ⟨-, moves, legal, some, -⟩)
      · exact ⟨turn, check⟩
      · obtain rfl := Except.ok.inj (none.symm.trans legal)
        cases mem
      · exact absurd (Except.ok.inj (legal.symm.trans none)) some
    · rintro ⟨turn, check⟩
      exact .inl ⟨turn, check, none⟩

theorem not_forces_zero (legal : p.legalMoves = .ok (m :: rest)) : ¬ p.Forces c 0 := by
  rintro ⟨-, -, none⟩
  cases legal.symm.trans none

/-- A mate is forced by one move of the one side, or against all moves of the other. -/
theorem forces_succ_iff (legal : p.legalMoves = .ok (m :: rest)) : p.Forces c (n + 1) ↔
    (p.toMove = c ∧ ∃ k ∈ m :: rest, ∃ q, p.play k = .ok q ∧ q.Forces c n) ∨
      (p.toMove = c.opponent ∧ ∀ k ∈ m :: rest, ∃ q, p.play k = .ok q ∧ q.Forces c n) := by
  rw [Forces, Checkmated, legal]
  simp only [Except.ok.injEq, exists_eq_left', reduceCtorEq, and_false, false_or, ne_eq,
    not_false_eq_true, true_and]

/-! ## The best of some scores -/

namespace Scored

variable {lines : List (Move × Score)} (scored : p.Scored w depth moves s lines)
include scored

/-- The best score is that of mating the opponent if one of the scores is. -/
theorem best_iff : s = Score.mated p.toMove.opponent ↔
    ∃ line ∈ lines, line.2 = Score.mated p.toMove.opponent := by
  obtain ⟨m, attained⟩ := scored.attained
  constructor
  · intro best
    exact ⟨_, attained, best⟩
  · rintro ⟨line, mem, win⟩
    have bound := scored.bound line mem
    have range := gain_inRange (s := s) p.toMove (scored.inRange attained)
    rw [win, Color.gain_mated_opponent] at bound
    refine (Color.gain_inj (c := p.toMove)).1 ?_
    rw [Color.gain_mated_opponent]
    omega

/-- The best score is that of being mated if all scores are. -/
theorem worst_iff : s = Score.mated p.toMove ↔ ∀ line ∈ lines, line.2 = Score.mated p.toMove := by
  obtain ⟨m, attained⟩ := scored.attained
  constructor
  · intro lost line mem
    have bound := scored.bound line mem
    have range := gain_inRange p.toMove (scored.inRange mem)
    rw [lost, Color.gain_mated] at bound
    refine (Color.gain_inj (c := p.toMove)).1 ?_
    rw [Color.gain_mated]
    omega
  · intro all
    exact all _ attained

end Scored

/-! ## Scores and forced mates -/

/-- There is a minimax score, and it is that of a checkmate exactly if the mate can be forced. -/
def TellsMates (w : Weights) (depth : Nat) (p : Position) : Prop :=
  ∃ s, p.minimax w depth = .ok s ∧ ∀ c, s = Score.mated c.opponent ↔ p.Forces c depth

/-- Without moves, a side whose king is attacked is mated, and any other draws. -/
theorem terminalScore_eq (p : Position) : p.terminalScore =
    .ok (if p.KingAttacked p.toMove then Score.mated p.toMove else Score.draw) := by
  rw [terminalScore, inCheck_eq]
  by_cases check : p.KingAttacked p.toMove <;> simp [check, bind, Except.bind, pure, Except.pure]

/-- Without moves the score is that of a mate if the mate is there. -/
theorem tellsMates_of_no_moves (king : p.king? p.toMove ≠ none) (none : p.legalMoves = .ok []) :
    p.TellsMates w depth := by
  refine ⟨_, minimax_of_no_moves king none p.terminalScore_eq, fun c => ?_⟩
  rw [forces_of_no_moves none, inCheck_eq, Except.ok.injEq, decide_eq_true_iff]
  by_cases check : p.KingAttacked p.toMove
  · rw [if_pos check, and_iff_left check]
    exact ⟨Color.mated_injective, fun turn => turn ▸ rfl⟩
  · simp [check, Color.draw_ne_mated]

/-- A move wins exactly if the score after it says so. -/
theorem minimaxAfter_eq_mated_iff (after : ∃ q, p.play m = .ok q ∧ q.TellsMates w depth) :
    p.minimaxAfter w depth m = .ok (Score.mated c.opponent) ↔
      ∃ q, p.play m = .ok q ∧ q.Forces c depth := by
  obtain ⟨q, played, s, score, tells⟩ := after
  rw [minimaxAfter_eq_ok_iff, played]
  simp only [Except.ok.injEq, exists_eq_left', score, tells]

/-- A line has the score of a mate exactly if the mate can be forced after its move. -/
theorem Scored.eq_mated_iff {lines : List (Move × Score)} {line : Move × Score}
    (scored : p.Scored w depth moves s lines) (mem : line ∈ lines)
    (after : ∃ q, p.play line.1 = .ok q ∧ q.TellsMates w depth) :
    line.2 = Score.mated c.opponent ↔ ∃ q, p.play line.1 = .ok q ∧ q.Forces c depth := by
  rw [← minimaxAfter_eq_mated_iff after, scored.after line mem, Except.ok.injEq]

/-- If the scores after all moves tell forced mates, so does the best of them. -/
theorem tellsMates_of_moves (king : p.king? p.toMove ≠ none)
    (legal : p.legalMoves = .ok (m :: rest))
    (after : ∀ k ∈ m :: rest, ∃ q, p.play k = .ok q ∧ q.TellsMates w depth) :
    p.TellsMates w (depth + 1) := by
  have all : ∀ k ∈ m :: rest, ∃ s, p.minimaxAfter w depth k = .ok s := by
    intro k mem
    obtain ⟨q, played, s, score, -⟩ := after k mem
    exact ⟨s, minimaxAfter_eq_ok_iff.2 ⟨q, played, score⟩⟩
  obtain ⟨s, lines, best, scored⟩ := exists_minimax_of_moves king legal all
  refine ⟨s, best, fun c => ?_⟩
  have wins : ∀ line ∈ lines, line.2 = Score.mated c.opponent ↔
      ∃ q, p.play line.1 = .ok q ∧ q.Forces c depth :=
    fun line mem => scored.eq_mated_iff mem
      (after line.1 (scored.moves ▸ List.mem_map_of_mem mem))
  have some_wins : (∃ k ∈ m :: rest, ∃ q, p.play k = .ok q ∧ q.Forces c depth) ↔
      ∃ line ∈ lines, line.2 = Score.mated c.opponent := by
    rw [← scored.moves]
    grind
  have all_win : (∀ k ∈ m :: rest, ∃ q, p.play k = .ok q ∧ q.Forces c depth) ↔
      ∀ line ∈ lines, line.2 = Score.mated c.opponent := by
    rw [← scored.moves, List.forall_mem_map]
    exact forall_congr' fun line => imp_congr_right fun mem => (wins line mem).symm
  rw [forces_succ_iff legal, some_wins, all_win]
  by_cases turn : p.toMove = c
  · subst turn
    rw [scored.best_iff]
    simp only [p.toMove.ne_opponent, false_and, or_false, true_and]
  · obtain rfl := Color.eq_opponent_of_ne (Ne.symm turn)
    rw [Color.opponent_opponent, scored.worst_iff]
    simp only [turn, false_and, false_or, true_and]

/-- With few pieces of moderate value, no evaluation is taken for a checkmate. -/
theorem tellsMates (moderate : w.IsModerate) (sound : p.Sound) (few : p.occupiedCount ≤ 32)
    (explorable : p.Explorable depth) : p.TellsMates w depth := by
  induction depth generalizing p with
  | zero =>
    obtain ⟨k, only⟩ := sound.king p.toMove
    have found := king?_of_unique only
    have king : p.king? p.toMove ≠ none := by simp [found]
    obtain ⟨moves, legal⟩ := explorable.exists_legalMoves
    cases moves with
    | nil => exact tellsMates_of_no_moves king legal
    | cons m rest =>
      obtain ⟨s, score, quiet⟩ := exists_evaluate_of_isModerate moderate few found
      refine ⟨s, minimax_zero_of_moves king legal score, fun c => ?_⟩
      exact iff_of_false (quiet _) (not_forces_zero legal)
  | succ depth ih =>
    have king := sound.king?_ne_none p.toMove
    obtain ⟨moves, legal⟩ := explorable.exists_legalMoves
    cases moves with
    | nil => exact tellsMates_of_no_moves king legal
    | cons m rest =>
      refine tellsMates_of_moves king legal fun k mem => ?_
      obtain ⟨q, played, soundAfter⟩ := sound.of_play legal mem
      have fewer := Nat.le_trans (occupiedCount_le_of_play legal mem played) few
      exact ⟨q, played, ih soundAfter fewer (explorable.of_play legal mem played)⟩

/-- While the counters have room, few pieces always have their legal moves. -/
theorem Sound.explorable (sound : p.Sound) (few : p.occupiedCount ≤ 7) (room : p.HasRoom (n + 1)) :
    p.Explorable n := by
  intro ms r le run
  induction run generalizing n with
  | nil p => exact ⟨_, sound.legalMoves_of_few few (room.mono (Nat.le_add_left 1 n))⟩
  | @cons p q _ m _ ms legal mem played rest ih =>
    cases n with
    | zero => cases le
    | succ n =>
      obtain ⟨q', again, roomAfter⟩ := room.exists_play m
      obtain rfl := Except.ok.inj (again.symm.trans played)
      obtain ⟨q', again, soundAfter⟩ := sound.of_play legal mem
      obtain rfl := Except.ok.inj (again.symm.trans played)
      have fewAfter := Nat.le_trans (occupiedCount_le_of_play legal mem played) few
      exact ih soundAfter fewAfter roomAfter (Nat.le_of_succ_le_succ le)

/-- After a legal move the minimax score tells forced mates as well. -/
theorem exists_tellsMates_after (moderate : w.IsModerate) (sound : p.Sound)
    (few : p.occupiedCount ≤ 32) (explorable : p.Explorable (depth + 1))
    (legal : p.legalMoves = .ok moves) (mem : m ∈ moves) :
    ∃ q, p.play m = .ok q ∧ q.TellsMates w depth := by
  obtain ⟨q, played, soundAfter⟩ := sound.of_play legal mem
  have fewer := Nat.le_trans (occupiedCount_le_of_play legal mem played) few
  exact ⟨q, played, tellsMates moderate soundAfter fewer (explorable.of_play legal mem played)⟩

theorem toMove_of_play (legal : p.legalMoves = .ok moves) (mem : m ∈ moves)
    (played : p.play m = .ok q) : q.toMove = p.toMove.opponent := by
  obtain ⟨kind, here, -⟩ := mem_pseudoLegalMoves.1 (of_mem_legalMoves legal mem).1
  exact (played_of_play here played).toMove

/-- A mate within one ply is there already if it is the opponent's turn: no side mates itself. -/
theorem Forces.checkmated (forces : p.Forces c 1) (turn : p.toMove = c.opponent) :
    p.Checkmated := by
  rcases forces with ⟨-, mated⟩ | ⟨own, -⟩ | ⟨-, moves, legal, some, all⟩
  · exact mated
  · exact absurd (own.symm.trans turn) c.ne_opponent
  · obtain ⟨m, mem⟩ := List.exists_mem_of_ne_nil moves some
    obtain ⟨q, played, own, -⟩ := all m mem
    have flipped := toMove_of_play legal mem played
    rw [turn, own, Color.opponent_opponent] at flipped
    exact absurd flipped.symm c.ne_opponent

/-! ## A mate in one -/

/-- White mates with a new queen, or with a new rook. -/
def backRank : Position where
  board := ((Board.empty.place ⟨.white, .king⟩ ⟨.b, Rank.third .black⟩).place ⟨.white, .pawn⟩
    ⟨.c, Rank.second .black⟩).place ⟨.black, .king⟩ ⟨.a, Rank.first .black⟩
  toMove := .white
  rights := {}
  enPassant := none
  halfmove := 0
  fullmove := 1

def toBackRank : Move := ⟨⟨.c, Rank.second .black⟩, ⟨.c, Rank.first .black⟩, some .queen⟩

theorem sound_backRank : backRank.Sound :=
  .of_kings ⟨.b, Rank.third .black⟩ ⟨.a, Rank.first .black⟩ (by decide +kernel)
    (by decide +kernel) rfl

theorem few_backRank : backRank.occupiedCount ≤ 7 :=
  Board.count_place_le_succ <| Board.count_place_le_succ <| Board.count_place_le_succ <|
    Board.count_empty_le 4

theorem legalMoves_backRank : backRank.legalMoves = .ok backRank.allowedMoves :=
  sound_backRank.legalMoves_of_few few_backRank (by decide)

/-- No move before that of the pawn gives check. -/
theorem allowedMoves_backRank : ∃ earlier later,
    backRank.allowedMoves = earlier ++ toBackRank :: later ∧
      ∀ m ∈ earlier, ∀ q, backRank.play m = .ok q → ¬ q.KingAttacked .black := by
  have listed : ∃ earlier later, backRank.pseudoLegalMoves = earlier ++ toBackRank :: later ∧
      ∀ m ∈ earlier, backRank.Allowed m →
        (backRank.play m).toOption.all fun q => ¬ q.KingAttacked .black :=
    ⟨backRank.pseudoLegalMoves.takeWhile (·.promotion = none),
      (backRank.pseudoLegalMoves.dropWhile (·.promotion = none)).tail, by decide +kernel⟩
  obtain ⟨earlier, later, split, quiet⟩ := listed
  have allowed : backRank.Allowed toBackRank := by decide +kernel
  refine ⟨earlier.filter (backRank.Allowed ·), later.filter (backRank.Allowed ·), ?_,
    fun m mem q played => ?_⟩
  · rw [allowedMoves, split, List.filter_append]
    exact congrArg _ (List.filter_cons_of_pos (decide_eq_true allowed))
  · obtain ⟨mem, legal⟩ := List.mem_filter.1 mem
    have calm := quiet m mem (of_decide_eq_true legal)
    rw [played] at calm
    exact of_decide_eq_true calm

/-- The move of the pawn mates. -/
theorem exists_mated_backRank (n : Nat) :
    ∃ q, backRank.play toBackRank = .ok q ∧ q.Forces .white n := by
  obtain ⟨earlier, later, split, -⟩ := allowedMoves_backRank
  have mem : toBackRank ∈ backRank.allowedMoves := by simp [split]
  obtain ⟨q, played, turn, room, check, none⟩ : ∃ q, backRank.play toBackRank = .ok q ∧
      q.toMove = .black ∧ q.HasRoom 1 ∧ q.KingAttacked .black ∧ q.allowedMoves = [] :=
    ⟨_, rfl, rfl, by decide, by decide +kernel, by decide +kernel⟩
  obtain ⟨r, again, sound⟩ := sound_backRank.of_play legalMoves_backRank mem
  obtain rfl := Except.ok.inj (played.symm.trans again)
  have few := Nat.le_trans (occupiedCount_le_of_play legalMoves_backRank mem played) few_backRank
  have legal := sound.legalMoves_of_few few room
  rw [none] at legal
  refine ⟨q, played, (forces_of_no_moves legal).2 ⟨turn, ?_⟩⟩
  rw [turn, inCheck_eq, decide_eq_true check]

/-- White can force the mate within any number of plies. -/
theorem forces_backRank (n : Nat) : backRank.Forces .white (n + 1) := by
  obtain ⟨earlier, later, split, -⟩ := allowedMoves_backRank
  have mem : toBackRank ∈ backRank.allowedMoves := by simp [split]
  exact .inr (.inl ⟨rfl, _, legalMoves_backRank, _, mem, exists_mated_backRank n⟩)

end Position

end ChessMachine
