import ChessMachine.Proofs.Rules.Captures
import ChessMachine.Proofs.Rules.Overflow
import ChessMachine.Proofs.Rules.WellFormed

/-!
# Clocks

The sides take turns, a full move is counted after each move of Black, and the other counter says
how many moves ago a pawn moved or a piece was taken. What a single move does to the counters adds
up over a run of moves.

## Main definitions

* `Turn`, `Position.turns` — the moves of a run, each with the positions around it.
* `Turn.Resets` — a pawn moves, or there are fewer pieces afterwards.

## Main results

* `Position.clocks_of_play` — the counters after one move.
* `Position.clocks_of_playAll` — the counters after a run.
-/
namespace ChessMachine

open Square (kingHome)

/-- A move that is played, with the positions before and after it. -/
structure Turn where
  before : Position
  move : Move
  after : Position

namespace Turn

def IsPseudoLegal (t : Turn) : Prop := t.move ∈ t.before.pseudoLegalMoves

instance (t : Turn) : Decidable t.IsPseudoLegal := inferInstanceAs (Decidable (_ ∈ _))

/-- A pawn moves, or the move leaves fewer pieces on the board. -/
def Resets (t : Turn) : Prop :=
  (t.before.piece? t.move.src).map Piece.kind = some .pawn ∨
    t.after.board.count < t.before.board.count

instance (t : Turn) : Decidable t.Resets := inferInstanceAs (Decidable (_ ∨ _))

def IsBlack (t : Turn) : Prop := t.before.toMove = .black

instance (t : Turn) : Decidable t.IsBlack := inferInstanceAs (Decidable (_ = _))

end Turn

namespace Position

variable {p q r : Position} {m : Move} {ms rest : List Move} {kind : PieceKind} {t : Turn}
  {before after : List Turn}

/-- The moves of a run, as far as they can be counted. -/
def turns (p : Position) : List Move → List Turn
  | [] => []
  | m :: rest =>
    match p.play m with
    | .ok q => ⟨p, m, q⟩ :: q.turns rest
    | .error _ => []

theorem turns_cons (played : p.play m = .ok q) (rest : List Move) :
    p.turns (m :: rest) = ⟨p, m, q⟩ :: q.turns rest := by rw [turns, played]

/-- A run is its first move and the run of the rest. -/
theorem playAll_cons_eq_ok_iff :
    p.playAll (m :: rest) = .ok r ↔ ∃ q, p.play m = .ok q ∧ q.playAll rest = .ok r := by
  rw [playAll, bind_eq_ok_iff]

/-- With room for all moves, they can be played. -/
theorem HasRoom.exists_playAll (room : p.HasRoom ms.length) : ∃ q, p.playAll ms = .ok q := by
  induction ms generalizing p with
  | nil => exact ⟨p, rfl⟩
  | cons m rest ih =>
    obtain ⟨q, played, left⟩ := room.exists_play m
    obtain ⟨r, run⟩ := ih left
    exact ⟨r, playAll_cons_eq_ok_iff.2 ⟨q, played, run⟩⟩

/-! ## One move -/

/-- A piece other than a pawn takes what stands where it arrives. -/
theorem isCapture_eq_isOccupied (goes : p.Goes p.toMove m.src kind m.dst)
    (here : p.piece? m.src = some ⟨p.toMove, kind⟩) (piece : kind ≠ .pawn) :
    p.isCapture m ⟨p.toMove, kind⟩ = p.isOccupied m.dst := by
  simp [isCapture, victim?, piece, goes.src_ne_dst here]

/-- It leaves fewer pieces exactly if it takes one. -/
theorem count_lt_iff (changes : Changes p q m) (here : p.piece? m.src = some ⟨p.toMove, kind⟩)
    (piece : kind ≠ .pawn) : q.board.count < p.board.count ↔ p.isOccupied m.dst = true := by
  have direct : p.passed? m = none := by
    refine if_neg fun passing => piece ?_
    simpa [here] using passing.1
  have sum := changes.count_add
  rw [taken, direct, Option.toList_none, List.countP_singleton] at sum
  split at sum <;> simp_all
  omega

/-- The counters after a move. -/
theorem clocks_of_play (h : m ∈ p.pseudoLegalMoves) (played : p.play m = .ok q) :
    q.toMove = p.toMove.opponent ∧
      q.fullmove.toNat = p.fullmove.toNat + (if (Turn.mk p m q).IsBlack then 1 else 0) ∧
      q.halfmove.toNat = if (Turn.mk p m q).Resets then 0 else p.halfmove.toNat + 1 := by
  obtain ⟨kind, here, goes, -⟩ := mem_pseudoLegalMoves.1 h
  obtain ⟨-, toMove, -, -, half, full⟩ := played_of_play here played
  refine ⟨toMove, ?_, ?_⟩
  · by_cases black : (Turn.mk p m q).IsBlack
    · rw [if_pos (show p.toMove = .black from black)] at full
      rw [if_pos black, toNat_increment full]
    · rw [if_neg (show p.toMove ≠ .black from black)] at full
      rw [if_neg black, Except.ok.inj full, Nat.add_zero]
  · have resets : (Turn.mk p m q).Resets ↔
        (kind = .pawn || p.isCapture m ⟨p.toMove, kind⟩) = true := by
      rw [Turn.Resets, here]
      by_cases pawn : kind = .pawn
      · simp [pawn]
      · rw [count_lt_iff (changes_of_play h played) here pawn,
          isCapture_eq_isOccupied goes here pawn]
        simp [pawn]
    split
    · rename_i reset
      rw [if_pos (resets.1 reset)] at half
      exact congrArg UInt64.toNat (Except.ok.inj half).symm
    · rename_i quiet
      rw [if_neg (mt resets.2 quiet)] at half
      exact toNat_increment half

/-! ## Runs -/

/-- In a run that ends, every move has its turn. -/
theorem map_move_turns (run : p.playAll ms = .ok q) : (p.turns ms).map Turn.move = ms := by
  induction ms generalizing p with
  | nil => rfl
  | cons m rest ih =>
    obtain ⟨r, played, run⟩ := playAll_cons_eq_ok_iff.1 run
    rw [turns_cons played, List.map_cons, ih run]

/-- A run of pseudo-legal moves, turn by turn. -/
theorem pseudoLegalRun_iff : PseudoLegalRun p ms q ↔
    p.playAll ms = .ok q ∧ ∀ t ∈ p.turns ms, t.IsPseudoLegal := by
  constructor
  · intro run
    induction run with
    | nil p => exact ⟨rfl, List.forall_mem_nil _⟩
    | cons mem played _ ih =>
      refine ⟨playAll_cons_eq_ok_iff.2 ⟨_, played, ih.1⟩, ?_⟩
      rw [turns_cons played]
      exact List.forall_mem_cons.2 ⟨mem, ih.2⟩
  · rintro ⟨run, legal⟩
    induction ms generalizing p with
    | nil =>
      obtain rfl := Except.ok.inj run
      exact .nil p
    | cons m rest ih =>
      obtain ⟨r, played, run⟩ := playAll_cons_eq_ok_iff.1 run
      rw [turns_cons played, List.forall_mem_cons] at legal
      exact .cons legal.1 played (ih run legal.2)

/-- A run goes on after each of its moves. -/
theorem exists_run_of_turns (run : PseudoLegalRun p ms q)
    (split : p.turns ms = before ++ t :: after) :
    t.IsPseudoLegal ∧ t.before.play t.move = .ok t.after ∧
      ∃ rest, PseudoLegalRun t.after rest q ∧ t.after.turns rest = after := by
  induction run generalizing before with
  | nil => exact absurd split (by simp [turns])
  | cons mem played run ih =>
    rw [turns_cons played] at split
    cases before with
    | nil =>
      obtain ⟨rfl, rfl⟩ := List.cons.inj split
      exact ⟨mem, played, _, run, rfl⟩
    | cons first before => exact ih (List.cons.inj split).2

/-- The sides take turns. -/
theorem toMove_of_run (run : PseudoLegalRun p ms q) :
    q.toMove = p.toMove ↔ ms.length % 2 = 0 := by
  induction run with
  | nil => exact iff_of_true rfl rfl
  | @cons p r q m rest mem played _ ih =>
    obtain ⟨toMove, -⟩ := clocks_of_play mem played
    have turned : q.toMove = p.toMove ↔ ¬ q.toMove = p.toMove.opponent := by
      cases q.toMove <;> cases p.toMove <;> decide
    rw [turned, ← toMove, ih, List.length_cons]
    omega

/-- Black's moves are counted. -/
theorem fullmove_of_run (run : PseudoLegalRun p ms q) :
    q.fullmove.toNat = p.fullmove.toNat + (p.turns ms).countP (·.IsBlack) := by
  induction run with
  | nil => rfl
  | cons mem played _ ih =>
    obtain ⟨-, fullmove, -⟩ := clocks_of_play mem played
    rw [ih, fullmove, turns_cons played, List.countP_cons]
    simp only [decide_eq_true_eq]
    omega

/-- Moves that reset nothing are counted on from what was there. -/
theorem halfmove_of_quiet (run : PseudoLegalRun p ms q) (quiet : ∀ t ∈ p.turns ms, ¬ t.Resets) :
    q.halfmove.toNat = p.halfmove.toNat + (p.turns ms).length := by
  induction run with
  | nil => rfl
  | cons mem played _ ih =>
    rw [turns_cons played, List.forall_mem_cons] at quiet
    obtain ⟨-, -, halfmove⟩ := clocks_of_play mem played
    rw [if_neg quiet.1] at halfmove
    rw [ih quiet.2, halfmove, turns_cons played, List.length_cons]
    omega

/-- After the last move that resets, the count starts from zero. -/
theorem halfmove_of_reset (run : PseudoLegalRun p ms q)
    (split : p.turns ms = before ++ t :: after) (resets : t.Resets)
    (quiet : ∀ u ∈ after, ¬ u.Resets) : q.halfmove.toNat = after.length := by
  obtain ⟨mem, played, rest, run, rfl⟩ := exists_run_of_turns run split
  obtain ⟨-, -, halfmove⟩ := clocks_of_play mem played
  rw [if_pos resets] at halfmove
  rw [halfmove_of_quiet run quiet, halfmove, Nat.zero_add]

/-- With room in the counters a run can be played. After a run of pseudo-legal moves the starting
side is to move if their number is even, the moves of Black have been added to the full moves, and
the other counter holds the number of moves after the last one of a pawn or with a loss of pieces.
If there was no such move, all of them have been added. -/
theorem clocks_of_playAll (p : Position) (ms : List Move) :
    (p.HasRoom ms.length → ∃ q, p.playAll ms = .ok q) ∧
    ∀ q, p.playAll ms = .ok q → (∀ t ∈ p.turns ms, t.IsPseudoLegal) →
      (p.turns ms).map Turn.move = ms ∧
      (q.toMove = p.toMove ↔ ms.length % 2 = 0) ∧
      q.fullmove.toNat = p.fullmove.toNat + (p.turns ms).countP (·.IsBlack) ∧
      ((∀ t ∈ p.turns ms, ¬ t.Resets) → q.halfmove.toNat = p.halfmove.toNat + ms.length) ∧
      ∀ before t after, p.turns ms = before ++ t :: after → t.Resets → (∀ u ∈ after, ¬ u.Resets) →
        q.halfmove.toNat = after.length := by
  refine ⟨HasRoom.exists_playAll, fun q played legal => ?_⟩
  have run : PseudoLegalRun p ms q := pseudoLegalRun_iff.2 ⟨played, legal⟩
  have moves := map_move_turns played
  refine ⟨moves, toMove_of_run run, fullmove_of_run run, fun quiet => ?_,
    fun before t after split => halfmove_of_reset run split⟩
  have length := congrArg List.length moves
  rw [List.length_map] at length
  rw [halfmove_of_quiet run quiet, length]

/-- White takes in passing, and then the kings move. -/
def passingAndKings : List Move :=
  [takingInPassing, ⟨kingHome .black, ⟨.d, Rank.first .black⟩, none⟩,
    ⟨kingHome .white, ⟨.d, Rank.first .white⟩, none⟩]

theorem clocks_passingAndKings : ∃ q, passedPawn.playAll passingAndKings = .ok q ∧
    q.toMove = .black ∧ q.fullmove.toNat = 10 ∧ q.halfmove.toNat = 2 := by
  obtain ⟨exists_playAll, clocks⟩ := clocks_of_playAll passedPawn passingAndKings
  obtain ⟨q, run⟩ := exists_playAll (by decide)
  have legal : ∀ t ∈ passedPawn.turns passingAndKings, t.IsPseudoLegal := by decide +kernel
  have kinds : (passedPawn.turns passingAndKings).map (fun t => (decide t.IsBlack, decide t.Resets))
      = [(false, true), (true, false), (false, false)] := by decide +kernel
  obtain ⟨-, toMove, fullmove, -, halfmove⟩ := clocks q run legal
  have blacks : (passedPawn.turns passingAndKings).countP (·.IsBlack) = 1 := by
    simpa [List.countP_map, Function.comp_def] using congrArg (List.countP Prod.fst) kinds
  obtain ⟨first, rest, turns, capture, kings⟩ := List.map_eq_cons_iff.1 kinds
  have quiet : ∀ t ∈ rest, ¬ t.Resets := by
    intro t mem
    have listed := List.mem_map_of_mem (f := fun t => (decide t.IsBlack, decide t.Resets)) mem
    rw [kings] at listed
    rcases (by simpa using listed) with ⟨-, quiet⟩ | ⟨-, quiet⟩ <;> exact quiet
  have two : rest.length = 2 := by simpa using congrArg List.length kings
  have after := halfmove [] first rest turns (by simpa using (Prod.mk.inj capture).2) quiet
  exact ⟨q, run, Color.eq_opponent_of_ne fun white => absurd (toMove.1 white) (by decide),
    by rw [fullmove, blacks]; rfl, after.trans two⟩

end Position

end ChessMachine
