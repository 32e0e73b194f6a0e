import ChessMachine.Board.Fen
import ChessMachine.Proofs.Rules.Changes
import ChessMachine.Proofs.Rules.Detection

/-!
# Legal play keeps the kings

A sound position has one king of each colour, no king that could be captured, and an en passant
square only behind a pawn that may just have gone two squares. Legal moves lead from sound
positions to sound ones: no king is captured because an attack would be a move, none is taken in
passing because a pawn stands there, and no pawn becomes a king.

## Main definitions

* `Position.Sound` — the invariant.
* `Position.LegalRun` — legal moves played one after the other.

## Main results

* `Position.Sound.of_play` — a legal move keeps a position sound.
* `Position.sound_of_legalRun` — so do all legal moves from the start of a game.
-/
namespace ChessMachine

namespace Move.Promotes

variable {m : Move} {c : Color} {kind : PieceKind}

/-- Nothing but a king is one after its move. -/
theorem getD_eq_king_iff (promotes : m.Promotes c kind) :
    m.promotion.getD kind = .king ↔ kind = .king := by
  rw [Promotes] at promotes
  split at promotes
  · obtain ⟨k, hk, promotion⟩ := promotes
    have pawn : kind ≠ .king := by
      intro king
      simp_all
    have piece : ∀ k ∈ PieceKind.promotions, k ≠ .king := by decide
    simp [promotion, pawn, piece k hk]
  · simp [promotes]

theorem promotion_eq_none (promotes : m.Promotes c kind) (short : m.dst.rank ≠ Rank.eighth c) :
    m.promotion = none := by
  rw [Promotes, if_neg fun last => short last.2] at promotes
  exact promotes

end Move.Promotes

namespace Position

variable {p q : Position} {m : Move} {c : Color} {kind : PieceKind} {src dst s : Square}

/-! ## Kings on the move -/

/-- Where the kings are after a move that neither castles nor takes a king. -/
theorem king_boardAfter_iff (here : p.piece? m.src = some ⟨c, kind⟩) (promotes : m.Promotes c kind)
    (still : ¬ p.isCastling m = true) (captured : ∀ d, p.piece? m.dst ≠ some ⟨d, .king⟩)
    (passed : ∀ v, p.victim? m ⟨c, kind⟩ = some v → ∀ d, p.piece? v ≠ some ⟨d, .king⟩) (d : Color) :
    (p.boardAfter m ⟨c, kind⟩).piece? s = some ⟨d, .king⟩ ↔
      (s = m.dst ∧ d = c ∧ kind = .king) ∨ s ≠ m.src ∧ p.piece? s = some ⟨d, .king⟩ := by
  rw [piece?_boardAfter (castlingWing?_eq_none here still)]
  by_cases target : s = m.dst
  · subst target
    have moved := promotes.getD_eq_king_iff
    simp only [if_true, Option.some.injEq, Piece.mk.injEq, moved, captured d, and_false, or_false,
      true_and]
    exact and_congr_left fun _ => eq_comm
  · simp only [target, if_false, false_and, false_or]
    by_cases left : s = m.src
    · simp [left]
    · by_cases victim : p.victim? m ⟨c, kind⟩ = some s
      · simp [victim, passed s victim d]
      · simp [victim, left]

/-! ## Sound positions -/

/-- One king of each colour, of which that of the side not to move is not attacked, and an en
passant square only right behind a pawn. -/
structure Sound (p : Position) : Prop where
  king : ∀ c, ∃ k, ∀ s, p.piece? s = some ⟨c, .king⟩ ↔ s = k
  safe : p.inCheck p.toMove.opponent = .ok false
  /-- The pawn stands in front of the square, as its own side sees it. -/
  enPassant : ∀ e, p.enPassant = some e → p.piece? e = none ∧
    e.rank = Rank.third p.toMove.opponent ∧ ∃ front, e.ahead p.toMove.opponent 1 = some front ∧
      p.piece? front = some ⟨p.toMove.opponent, .pawn⟩

/-- A position is sound if it has one king of each colour, none in danger, and no en passant
square. -/
theorem Sound.of_kings (white black : Square)
    (kings : ∀ s ∈ Square.all, (p.piece? s = some ⟨.white, .king⟩ ↔ s = white) ∧
      (p.piece? s = some ⟨.black, .king⟩ ↔ s = black))
    (safe : ¬ p.KingAttacked p.toMove.opponent) (none : p.enPassant = none) : p.Sound where
  king c := by
    cases c with
    | white => exact ⟨white, fun s => (kings s s.mem_all).1⟩
    | black => exact ⟨black, fun s => (kings s s.mem_all).2⟩
  safe := by rw [inCheck_eq, decide_eq_false safe]
  enPassant e he := by
    rw [none] at he
    cases he

namespace Sound

variable (sound : p.Sound)
include sound

/-- A sound position has the king of each colour. -/
theorem king?_ne_none (c : Color) : p.king? c ≠ none := by
  obtain ⟨k, only⟩ := sound.king c
  rw [king?_of_unique only]
  exact Option.some_ne_none k

/-- A pawn taken in passing is a pawn. -/
theorem piece?_victim {v : Square} (h : p.victim? m ⟨p.toMove, kind⟩ = some v) :
    p.piece? v = some ⟨p.toMove.opponent, .pawn⟩ :=
  piece?_of_victim? (fun e he => (sound.enPassant e he).2.2) h

/-- No king can be captured. -/
theorem piece?_dst (h : m ∈ p.pseudoLegalMoves) (d : Color) :
    p.piece? m.dst ≠ some ⟨d, .king⟩ := by
  intro king
  obtain ⟨kind, -, goes, -⟩ := mem_pseudoLegalMoves.1 h
  have color : p.color? m.dst = some d := congrArg (Option.map Piece.color) king
  have enemy : d = p.toMove.opponent :=
    Color.eq_opponent_of_ne fun own => goes.other (own ▸ color)
  subst enemy
  obtain ⟨k, only⟩ := sound.king p.toMove.opponent
  have attacked := (attacked_iff_exists_move color).2 ⟨m, h, rfl⟩
  have safe := sound.safe
  rw [inCheck_eq, Except.ok.injEq, decide_eq_false_iff_not] at safe
  rw [(only _).1 king] at attacked
  exact safe ⟨k, king?_of_unique only, attacked⟩

/-- After a legal move there is one king of each colour. -/
theorem king_of_play (h : m ∈ p.pseudoLegalMoves) (played : p.play m = .ok q) (d : Color) :
    ∃ k, ∀ s, q.piece? s = some ⟨d, .king⟩ ↔ s = k := by
  obtain ⟨kind, here, -, promotes⟩ := mem_pseudoLegalMoves.1 h
  have board := (played_of_play here played).board
  obtain ⟨k, only⟩ := sound.king d
  by_cases castling : p.isCastling m = true
  · obtain ⟨w, rfl, king, can⟩ := eq_castle_of_mem h castling
    obtain rfl : kind = .king := by simpa [here] using king
    obtain ⟨home, unique⟩ := sound.king p.toMove
    obtain rfl := (unique _).1 here
    have ready := readyToCastle unique can
    have after := isCastled_of_board ready board
    by_cases turn : d = p.toMove
    · exact ⟨_, fun s => turn ▸ after.only ready s⟩
    · obtain rfl := Color.eq_opponent_of_ne turn
      exact ⟨k, fun s => (after.enemy_iff ready s .king).symm.trans (only s)⟩
  · have kings (s : Square) : q.piece? s = some ⟨d, .king⟩ ↔ _ :=
      (congrArg (fun b : Board => b.piece? s = some ⟨d, .king⟩) board).to_iff.trans
        (king_boardAfter_iff here promotes castling (sound.piece?_dst h)
          (fun v hv d => by simp [sound.piece?_victim hv]) d)
    by_cases moved : d = p.toMove ∧ kind = .king
    · obtain ⟨rfl, rfl⟩ := moved
      have source := (only _).1 here
      refine ⟨m.dst, fun s => ?_⟩
      rw [kings, only]
      grind
    · have source : m.src ≠ k := by
        intro same
        have king := (only _).2 same
        simp_all
      refine ⟨k, fun s => ?_⟩
      rw [kings, only]
      grind

end Sound

/-! ## En passant -/

/-- A pawn that crosses two ranks goes straight on over an empty square. -/
theorem Goes.doublePush_of_rankDistance (goes : p.Goes c src .pawn dst)
    (two : (src.rank.index.val - dst.rank.index.val : Int).natAbs = 2) :
    src.rank = Rank.second c ∧ src.ahead c 2 = some dst ∧
      ∃ mid, src.ahead c 1 = some mid ∧ p.piece? mid = none := by
  have diagonal {d} (hd : d ∈ Direction.pawn c) (step : src.step d = some dst) : False := by
    have ranks := (Square.step_eq_some_iff.1 step).2
    have one : ∀ d ∈ Direction.pawn c, d.ranks = 1 ∨ d.ranks = -1 := by cases c <;> decide
    rcases one d hd with h | h <;> omega
  cases goes with
  | push step _ =>
    have ranks := (Square.ahead_eq_some_iff.1 step).2
    cases c <;> simp only [Color.sign] at ranks <;> omega
  | doublePush home step free further _ => exact ⟨home, further, _, step, free⟩
  | capture hd step _ => exact (diagonal hd step).elim
  | enPassant hd step _ _ => exact (diagonal hd step).elim
  | jump hd _ _ | slide hd _ _ => cases hd

/-- The en passant square after a move lies behind a pawn that has gone two squares. -/
theorem enPassant_of_play (h : m ∈ p.pseudoLegalMoves) (played : p.play m = .ok q) {e : Square}
    (he : q.enPassant = some e) : q.piece? e = none ∧ e.rank = Rank.third p.toMove ∧
      ∃ front, e.ahead p.toMove 1 = some front ∧ q.piece? front = some ⟨p.toMove, .pawn⟩ := by
  obtain ⟨kind, here, goes, promotes⟩ := mem_pseudoLegalMoves.1 h
  have after := played_of_play here played
  rw [after.enPassant, enPassantAfter] at he
  split at he
  · rename_i double
    obtain ⟨pawn, two⟩ := double
    obtain rfl : kind = .pawn := pawn
    obtain ⟨home, further, mid, step, free⟩ := goes.doublePush_of_rankDistance two
    obtain rfl := Option.some.inj (step.symm.trans he)
    obtain ⟨file, rank⟩ := Square.ahead_eq_some_iff.1 step
    obtain ⟨file', rank'⟩ := Square.ahead_eq_some_iff.1 further
    have start := Rank.eq_iff.1 home
    have third : mid.rank = Rank.third p.toMove := by
      rw [Rank.eq_iff]
      cases ht : p.toMove <;> simp only [ht, Color.sign, Rank.second, Rank.third] at * <;> omega
    have front : mid.ahead p.toMove 1 = some m.dst := by
      rw [Square.ahead_eq_some_iff]
      refine ⟨file'.trans file.symm, ?_⟩
      omega
    have short : m.dst.rank ≠ Rank.eighth p.toMove := by
      rw [Ne, Rank.eq_iff]
      cases ht : p.toMove <;>
        simp only [ht, Color.sign, Rank.second, Rank.eighth, Rank.first, Color.opponent] at * <;>
        omega
    have plain : castlingWing? m ⟨p.toMove, .pawn⟩ = none := by simp [castlingWing?]
    have board (s : Square) : q.piece? s = _ :=
      (congrArg (Board.piece? · s) after.board).trans (piece?_boardAfter plain s)
    have apart : mid ≠ m.dst := by
      rintro rfl
      cases ht : p.toMove <;> simp only [ht, Color.sign] at rank rank' <;> omega
    refine ⟨?_, third, m.dst, front, ?_⟩
    · rw [board, if_neg apart, free, ite_self]
    · rw [board, if_pos rfl, promotes.promotion_eq_none short]
      rfl
  · cases he

/-! ## Runs of legal moves -/

/-- A legal move can be played and leads from a sound position to a sound one. -/
theorem Sound.of_play (sound : p.Sound) {moves : List Move} (legal : p.legalMoves = .ok moves)
    (mem : m ∈ moves) : ∃ q, p.play m = .ok q ∧ q.Sound := by
  obtain ⟨pseudoLegal, answer⟩ := of_mem_legalMoves legal mem
  obtain ⟨q, played, safe⟩ := exists_play_of_isLegal answer
  obtain ⟨kind, here, -⟩ := mem_pseudoLegalMoves.1 pseudoLegal
  have turn : q.toMove.opponent = p.toMove := by
    rw [(played_of_play here played).toMove, Color.opponent_opponent]
  refine ⟨q, played, sound.king_of_play pseudoLegal played, turn ▸ safe, fun e he => ?_⟩
  rw [turn]
  exact enPassant_of_play pseudoLegal played he

/-- Legal moves that lead from one position to another. -/
inductive LegalRun : Position → List Move → Position → Prop where
  | nil (p : Position) : LegalRun p [] p
  | cons {p q r : Position} {m : Move} {moves ms : List Move} (legal : p.legalMoves = .ok moves)
      (mem : m ∈ moves) (played : p.play m = .ok q) (rest : LegalRun q ms r) :
      LegalRun p (m :: ms) r

/-- Legal moves, however many, keep a position sound. -/
theorem Sound.of_legalRun {ms : List Move} (sound : p.Sound) (run : LegalRun p ms q) :
    q.Sound := by
  induction run with
  | nil => exact sound
  | cons legal mem played _ ih =>
    obtain ⟨r, again, next⟩ := sound.of_play legal mem
    obtain rfl := Except.ok.inj (played.symm.trans again)
    exact ih next

/-! ## The start of a game -/

def homeKinds : List PieceKind := [.rook, .knight, .bishop, .queen, .king, .bishop, .knight, .rook]

def startCells : List (Option Piece) :=
  (homeKinds.map fun kind => some ⟨.white, kind⟩) ++ List.replicate 8 (some ⟨.white, .pawn⟩)
    ++ List.replicate 32 none
    ++ List.replicate 8 (some ⟨.black, .pawn⟩) ++ homeKinds.map fun kind => some ⟨.black, kind⟩

theorem start_eq : Position.start =
    { board := .ofCells startCells.toArray, toMove := .white, rights := ⟨true, true, true, true⟩,
      enPassant := none, halfmove := 0, fullmove := 1 } := by
  have read : ofFen startFen = .ok _ := rfl
  rw [start, read]
  rfl

/-- The start of a game is sound. -/
theorem sound_start : Position.start.Sound := by
  rw [start_eq]
  refine ⟨fun c => ⟨Square.kingHome c, fun s => ?_⟩, ?_, nofun⟩
  · have kings : ∀ s ∈ Square.all, (Board.ofCells startCells.toArray).piece? s = some ⟨c, .king⟩ ↔
        s = Square.kingHome c := by cases c <;> decide +kernel
    exact kings s s.mem_all
  · rw [inCheck_eq, decide_eq_false (by decide +kernel)]

/-- The start of a game is sound, a legal move leads from a sound position to a sound one, and so
in a run of legal moves from the start no king is lost and no mover is left in check. -/
theorem sound_of_legalRun :
    Position.start.Sound ∧
      (∀ p : Position, p.Sound → ∀ moves, p.legalMoves = .ok moves → ∀ m ∈ moves,
        ∃ q, p.play m = .ok q ∧ q.Sound) ∧
      ∀ ms q, LegalRun .start ms q → q.Sound ∧ (∀ c, ∃ k, q.king? c = some k) ∧
        q.inCheck q.toMove.opponent = .ok false := by
  refine ⟨sound_start, fun p sound moves legal m mem => sound.of_play legal mem, ?_⟩
  intro ms q run
  have sound := sound_start.of_legalRun run
  refine ⟨sound, fun c => ?_, sound.safe⟩
  obtain ⟨k, only⟩ := sound.king c
  exact ⟨k, king?_of_unique only⟩

/-- The king's pawn goes two squares in the first move of a game. -/
theorem sound_kingPawn :
    ∃ q, LegalRun .start [⟨⟨.e, .second .white⟩, ⟨.e, ⟨⟨3, by decide⟩⟩⟩, none⟩] q ∧ q.Sound := by
  obtain ⟨sound, step, runs⟩ := sound_of_legalRun
  have few : start.pseudoLegalMoves.length ≤ 218 := by rw [start_eq]; decide +kernel
  have legal : start.legalMoves = .ok start.allowedMoves :=
    legalMoves_of_le (sound.king _) (by rw [start_eq]; decide) (by rw [start_eq]; decide)
      (Nat.le_trans (List.length_filter_le ..) few)
  have mem : ⟨⟨.e, .second .white⟩, ⟨.e, ⟨⟨3, by decide⟩⟩⟩, none⟩ ∈ start.allowedMoves := by
    rw [start_eq]
    exact List.mem_filter.2 (by decide +kernel)
  obtain ⟨q, played, -⟩ := step _ sound _ legal _ mem
  have run := LegalRun.cons legal mem played (.nil q)
  exact ⟨q, run, (runs _ q run).1⟩

end Position

end ChessMachine
