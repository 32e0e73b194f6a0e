import ChessMachine.Proofs.Board.Playing
import ChessMachine.Proofs.Rules.CheckProgram
import ChessMachine.Proofs.Rules.Failure
import ChessMachine.Proofs.Rules.PseudoLegal

/-!
# Legal moves are those of the rules

A king castles if no square from its home to its destination is attacked as the board stands. Any
other move is allowed if the mover's king is not attacked after it.

## Main definitions

* `Position.Allowed` — what the rules ask of a pseudo-legal move.

## Main results

* `Position.of_mem_legalMoves`, `Position.exists_play_of_isLegal` — what is known of a legal move.
* `Position.isLegal_eq` — the legality of a move.
* `Position.legalMoves_eq` — the legal moves.
-/
namespace ChessMachine

open Square (kingHome rookHome crossed castled)

/-- The squares strictly between source and destination, if these stand on one rank. -/
def Move.between (m : Move) : List Square :=
  Square.all.filter fun s => s.rank = m.src.rank ∧
    min m.src.file.index.val m.dst.file.index.val < s.file.index.val ∧
    s.file.index.val < max m.src.file.index.val m.dst.file.index.val

namespace Position

/-- No square on the way of the king is attacked, from its home to its destination. -/
def SafeWay (p : Position) (m : Move) : Prop :=
  ¬ p.Attacked p.toMove m.src ∧ (∀ s ∈ m.between, ¬ p.Attacked p.toMove s) ∧
    ¬ p.Attacked p.toMove m.dst

/-- The mover's king, if there still is one, is not attacked after the move. -/
def SafeAfter (p : Position) (m : Move) : Prop :=
  ∃ q, p.play m = .ok q ∧ ¬ q.KingAttacked p.toMove

/-- The rules allow a pseudo-legal move. -/
def Allowed (p : Position) (m : Move) : Prop :=
  if p.isCastling m then p.SafeWay m else p.SafeAfter m

instance (p : Position) (m : Move) : Decidable (p.SafeWay m) :=
  inferInstanceAs (Decidable (_ ∧ _ ∧ _))

instance (p : Position) (m : Move) : Decidable (p.SafeAfter m) :=
  match h : p.play m with
  | .ok q => decidable_of_iff (¬ q.KingAttacked p.toMove) (by simp [SafeAfter, h])
  | .error _ => .isFalse (by simp [SafeAfter, h])

instance (p : Position) (m : Move) : Decidable (p.Allowed m) :=
  inferInstanceAs (Decidable (if p.isCastling m then p.SafeWay m else p.SafeAfter m))

/-- The pseudo-legal moves that the rules allow, in their order. -/
def allowedMoves (p : Position) : List Move := p.pseudoLegalMoves.filter (p.Allowed ·)

variable {p q : Position} {m : Move} {c : Color} {w : Wing}

/-! ## Moves that castle -/

theorem between_castle (c : Color) (w : Wing) : (Move.castle c w).between = [crossed c w] := by
  cases c <;> cases w <;> decide

theorem transit?_castle (c : Color) (w : Wing) : transit? (.castle c w) = some (crossed c w) := by
  cases c <;> cases w <;> decide

theorem castlingWing?_castle (c : Color) (w : Wing) :
    castlingWing? (.castle c w) ⟨c, .king⟩ = some w := by
  cases c <;> cases w <;> decide

theorem castlingSquares_ne (c : Color) (w : Wing) :
    castled c w ≠ crossed c w ∧ castled c w ≠ rookHome c w ∧ castled c w ≠ kingHome c ∧
      crossed c w ≠ rookHome c w ∧ crossed c w ≠ kingHome c ∧ rookHome c w ≠ kingHome c := by
  cases c <;> cases w <;> decide

/-- The position that is tried for a castling move has the king halfway. -/
theorem isHalfway_halfway (ready : p.ReadyToCastle c w) :
    p.IsHalfway c w (p.halfway (.castle c w) (crossed c w)) := by
  have view := Board.piece?_carry ready.king (crossed c w)
  obtain ⟨-, -, -, -, apart, -⟩ := castlingSquares_ne c w
  refine ⟨?_, ?_, fun t there home => ?_⟩
  · exact (view _).trans (if_pos rfl)
  · refine (view _).trans ?_
    rw [if_neg apart.symm, if_pos rfl]
  · refine Eq.symm ((view t).trans ?_)
    rw [if_neg there, if_neg home]
    rfl

theorem piece?_boardAfter_castle (rook : p.piece? (rookHome c w) = some ⟨c, .rook⟩) (t : Square) :
    (p.boardAfter (.castle c w) ⟨c, .king⟩).piece? t =
      if t = castled c w then some ⟨c, .king⟩
      else if t = crossed c w then some ⟨c, .rook⟩
      else if t = rookHome c w then none
      else if t = kingHome c then none
      else p.piece? t := by
  obtain ⟨-, -, -, -, -, apart⟩ := castlingSquares_ne c w
  have lifted : p.lifted (.castle c w) ⟨c, .king⟩ = p.board.clear (kingHome c) := rfl
  have there : (p.board.clear (kingHome c)).piece? (rookHome c w) = some ⟨c, .rook⟩ := by
    rw [Board.piece?_clear, if_neg apart]
    exact rook
  rw [boardAfter, lifted, castlingWing?_castle]
  show (((p.board.clear (kingHome c)).carry (rookHome c w) (crossed c w)).place _ _).piece? t = _
  rw [Board.piece?_place, Board.piece?_carry there, Board.piece?_clear]
  rfl

theorem isCastled_of_view (view : ∀ t, q.piece? t =
      if t = castled c w then some ⟨c, .king⟩
      else if t = crossed c w then some ⟨c, .rook⟩
      else if t = rookHome c w then none
      else if t = kingHome c then none
      else p.piece? t) : p.IsCastled c w q := by
  have apart := castlingSquares_ne c w
  refine ⟨?_, ?_, ?_, ?_, fun t target there home corner => ?_⟩ <;> rw [view] <;> grind

theorem isCastled_of_board (ready : p.ReadyToCastle c w)
    (board : q.board = p.boardAfter (.castle c w) ⟨c, .king⟩) : p.IsCastled c w q :=
  isCastled_of_view fun t =>
    (congrArg (Board.piece? · t) board).trans (piece?_boardAfter_castle ready.rook t)

/-- A castling way is safe if the king is attacked neither at home nor where it crosses. -/
theorem isPathSafe_castle (ready : p.ReadyToCastle p.toMove w) :
    p.isPathSafe (.castle p.toMove w)
      = .ok (decide (¬ p.Attacked p.toMove (kingHome p.toMove) ∧
          ¬ p.Attacked p.toMove (crossed p.toMove w))) := by
  have home := kingAttacked_iff_of_king? (king?_of_unique ready.only)
  have half := isHalfway_halfway ready
  have there := kingAttacked_iff_of_king? (half.king?_eq ready)
  simp only [isPathSafe, inCheck_eq, transit?_castle, bind, Except.bind, home, there]
  by_cases safe : p.Attacked p.toMove (kingHome p.toMove)
  · rw [if_pos (decide_eq_true safe), decide_eq_false fun both => both.1 safe]
    rfl
  · rw [if_neg (by simpa using safe), ← decide_not]
    refine congrArg Except.ok (decide_eq_decide.2 ?_)
    rw [half.attacked_iff ready safe, and_iff_right safe]

/-! ## What legality says -/

/-- A move is legal only if it can be played and the mover's king is not attacked after it. -/
theorem exists_play_of_isLegal (h : p.isLegal m = .ok true) :
    ∃ q, p.play m = .ok q ∧ q.inCheck p.toMove = .ok false := by
  have last (h : (do return !(← (← p.play m).inCheck p.toMove) : Except Failure Bool)
      = .ok true) : ∃ q, p.play m = .ok q ∧ q.inCheck p.toMove = .ok false := by
    obtain ⟨q, played, h⟩ := bind_eq_ok_iff.1 h
    obtain ⟨check, answer, h⟩ := bind_eq_ok_iff.1 h
    have safe : check = false := by simpa using Except.ok.inj h
    rw [Failure.liftM_overflow_eq_ok_iff] at played
    rw [Failure.liftM_fault_eq_ok_iff, safe] at answer
    exact ⟨q, played, answer⟩
  rw [isLegal] at h
  split at h
  · obtain ⟨way, -, h⟩ := bind_eq_ok_iff.1 h
    cases way with
    | false => cases Except.ok.inj h
    | true => exact last h
  · exact last h

theorem of_mem_addLegal {moves : List Move} {found out : Array Move}
    (h : p.addLegal found moves = .ok out) (mem : m ∈ out) :
    m ∈ found ∨ m ∈ moves ∧ p.isLegal m = .ok true := by
  induction moves generalizing found with
  | nil =>
    obtain rfl := Except.ok.inj h
    exact .inl mem
  | cons n rest ih =>
    rw [addLegal] at h
    obtain ⟨legal, answer, h⟩ := bind_eq_ok_iff.1 h
    cases legal with
    | false => exact (ih h).imp_right fun later => ⟨List.mem_cons_of_mem n later.1, later.2⟩
    | true =>
      simp only [if_true] at h
      split at h
      · rcases ih h with before | later
        · rcases Array.mem_push.1 before with before | rfl
          · exact .inl before
          · exact .inr ⟨List.mem_cons_self, answer⟩
        · exact .inr ⟨List.mem_cons_of_mem n later.1, later.2⟩
      · cases h

theorem size_le_of_addLegal {moves : List Move} {found out : Array Move}
    (h : p.addLegal found moves = .ok out) (room : found.size ≤ moveCapacity) :
    out.size ≤ moveCapacity := by
  induction moves generalizing found with
  | nil =>
    obtain rfl := Except.ok.inj h
    exact room
  | cons n rest ih =>
    rw [addLegal] at h
    obtain ⟨legal, -, h⟩ := bind_eq_ok_iff.1 h
    cases legal with
    | false => exact ih h room
    | true =>
      simp only [if_true] at h
      split at h
      · exact ih h (by rw [Array.size_push]; omega)
      · cases h

/-- The legal moves are pseudo-legal ones that were found legal. -/
theorem of_mem_legalMoves {moves : List Move} (h : p.legalMoves = .ok moves) (mem : m ∈ moves) :
    m ∈ p.pseudoLegalMoves ∧ p.isLegal m = .ok true := by
  obtain ⟨out, found, h⟩ := bind_eq_ok_iff.1 h
  obtain rfl := Except.ok.inj h
  exact (of_mem_addLegal found (Array.mem_toList_iff.1 mem)).resolve_left (by simp)

/-- No list of legal moves is longer than its capacity. -/
theorem length_le_of_legalMoves {moves : List Move} (h : p.legalMoves = .ok moves) :
    moves.length ≤ moveCapacity := by
  obtain ⟨out, found, h⟩ := bind_eq_ok_iff.1 h
  obtain rfl := Except.ok.inj h
  exact size_le_of_addLegal found (Nat.zero_le _)

/-! ## All moves -/

theorem not_inCheck_eq (q : Position) (c : Color) :
    (do return !(← q.inCheck c) : Except Failure Bool) = .ok (decide (¬ q.KingAttacked c)) := by
  rw [inCheck_eq, decide_not]
  rfl

/-- The legal moves among further ones are added, as long as there is room. -/
theorem addLegal_eq {moves : List Move} {found : Array Move}
    (legal : ∀ m ∈ moves, p.isLegal m = .ok (decide (p.Allowed m)))
    (room : found.size ≤ moveCapacity) :
    p.addLegal found moves =
      if found.size + (moves.filter (p.Allowed ·)).length ≤ moveCapacity then
        .ok (found ++ (moves.filter (p.Allowed ·)).toArray)
      else .error (.fault (.moveListFull moveCapacity)) := by
  induction moves generalizing found with
  | nil => simp [addLegal, room]
  | cons m rest ih =>
    have later := fun m hm => legal m (List.mem_cons_of_mem _ hm)
    rw [addLegal, legal m List.mem_cons_self]
    by_cases allowed : p.Allowed m
    · have kept : (m :: rest).filter (p.Allowed ·) = m :: rest.filter (p.Allowed ·) := by
        simp [allowed]
      rw [decide_eq_true allowed, kept, List.length_cons]
      show (if found.size < moveCapacity then p.addLegal (found.push m) rest else _) = _
      by_cases space : found.size < moveCapacity
      · have pushed : (found.push m).size ≤ moveCapacity := by
          rw [Array.size_push]
          exact space
        rw [if_pos space, ih later pushed, Array.size_push, Nat.add_assoc, Nat.add_comm 1,
          List.push_append_toArray]
      · rw [if_neg space, if_neg (by omega)]
        rfl
    · have dropped : (m :: rest).filter (p.Allowed ·) = rest.filter (p.Allowed ·) := by
        simp [allowed]
      rw [decide_eq_false allowed, dropped]
      exact ih later room

section

variable (king : ∃ k, ∀ s, p.piece? s = some ⟨p.toMove, .king⟩ ↔ s = k)
  (half : p.halfmove.toNat < 0xffffffffffffffff) (full : p.fullmove.toNat < 0xffffffffffffffff)
include king half full

/-- A pseudo-legal move is legal if the rules allow it. -/
theorem isLegal_eq (h : m ∈ p.pseudoLegalMoves) : p.isLegal m = .ok (decide (p.Allowed m)) := by
  by_cases castling : p.isCastling m = true
  · obtain ⟨w, rfl, here, can⟩ := eq_castle_of_mem h castling
    obtain ⟨k, only⟩ := king
    obtain rfl : kingHome p.toMove = k := (only _).1 here
    have ready := readyToCastle only can
    obtain ⟨q, played, board, -⟩ := exists_play here half full
    have after := isCastled_of_board ready board
    have arrived := kingAttacked_iff_of_king? (after.king?_eq ready)
    have allowed : p.Allowed (.castle p.toMove w) ↔
        (¬ p.Attacked p.toMove (kingHome p.toMove) ∧ ¬ p.Attacked p.toMove (crossed p.toMove w)) ∧
          ¬ p.Attacked p.toMove (castled p.toMove w) := by
      rw [Allowed, if_pos castling, SafeWay, between_castle, List.forall_mem_singleton, and_assoc]
      rfl
    rw [isLegal, if_pos castling, isPathSafe_castle ready, played]
    by_cases way : ¬ p.Attacked p.toMove (kingHome p.toMove) ∧
        ¬ p.Attacked p.toMove (crossed p.toMove w)
    · have arrives : p.Allowed (.castle p.toMove w) ↔ ¬ q.KingAttacked p.toMove := by
        rw [allowed, and_iff_right way, arrived, after.attacked_iff ready]
      rw [decide_eq_true way]
      exact (not_inCheck_eq q _).trans (congrArg Except.ok (decide_eq_decide.2 arrives.symm))
    · rw [decide_eq_false way, decide_eq_false (mt allowed.1 (mt And.left way))]
      rfl
  · obtain ⟨kind, here, -⟩ := exists_of_mem_pseudoLegalMoves h
    obtain ⟨q, played, -⟩ := exists_play here half full
    have allowed : p.Allowed m ↔ ¬ q.KingAttacked p.toMove := by
      simp [Allowed, castling, SafeAfter, played]
    rw [isLegal, if_neg castling, played]
    exact (not_inCheck_eq q _).trans (congrArg Except.ok (decide_eq_decide.2 allowed.symm))

theorem addLegal_pseudoLegalMoves : p.addLegal #[] p.pseudoLegalMoves =
    if p.allowedMoves.length ≤ 218 then .ok p.allowedMoves.toArray
    else .error (.fault (.moveListFull 218)) := by
  have count : (#[] : Array Move).size + (p.pseudoLegalMoves.filter (p.Allowed ·)).length
      = p.allowedMoves.length := Nat.zero_add _
  rw [addLegal_eq (fun m => isLegal_eq king half full) (Nat.zero_le _), count, moveCapacity,
    Array.empty_append]
  rfl

/-- As long as they fit the list, the legal moves are those that the rules allow. -/
theorem legalMoves_of_le (fits : p.allowedMoves.length ≤ 218) :
    p.legalMoves = .ok p.allowedMoves := by
  rw [legalMoves, addLegal_pseudoLegalMoves king half full, if_pos fits]
  rfl

/-- Moves that do not fit the list are an error, and never a shorter list. -/
theorem legalMoves_of_gt (tooMany : 218 < p.allowedMoves.length) :
    p.legalMoves = .error (.fault (.moveListFull 218)) := by
  rw [legalMoves, addLegal_pseudoLegalMoves king half full, if_neg (Nat.not_le.2 tooMany)]
  rfl

/-- The legal moves are the pseudo-legal ones that the rules allow, in their order, unless these
are too many. -/
theorem legalMoves_eq : p.legalMoves =
    if p.allowedMoves.length ≤ 218 then .ok p.allowedMoves
    else .error (.fault (.moveListFull 218)) := by
  by_cases fits : p.allowedMoves.length ≤ 218
  · rw [if_pos fits, legalMoves_of_le king half full fits]
  · rw [if_neg fits, legalMoves_of_gt king half full (Nat.not_le.1 fits)]

end

/-- White may castle, although the square next to the rook is attacked. -/
def rookEndgame : Position where
  board := (((Board.empty.place ⟨.white, .king⟩ (kingHome .white)).place ⟨.white, .rook⟩
    (rookHome .white .long)).place ⟨.black, .king⟩ (kingHome .black)).place ⟨.black, .rook⟩
    ⟨.b, Rank.first .black⟩
  toMove := .white
  rights := .single .white .long
  enPassant := none
  halfmove := 0
  fullmove := 1

theorem legalMoves_rookEndgame :
    ∃ moves, rookEndgame.legalMoves = .ok moves ∧ moves.length = 16 ∧
      .castle .white .long ∈ moves := by
  have king : ∀ s ∈ Square.all,
      rookEndgame.piece? s = some ⟨.white, .king⟩ ↔ s = kingHome .white := by decide +kernel
  have moves := legalMoves_eq ⟨_, fun s => king s s.mem_all⟩ (by decide) (by decide)
  have count : rookEndgame.allowedMoves.length = 16 := by decide +kernel
  rw [count, if_pos (by decide)] at moves
  exact ⟨_, moves, count, by decide +kernel⟩

end Position

end ChessMachine
