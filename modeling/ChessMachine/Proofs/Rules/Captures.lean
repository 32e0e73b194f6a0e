import ChessMachine.Board.Fen
import ChessMachine.Proofs.Board.Count
import ChessMachine.Proofs.Rules.Changes
import ChessMachine.Proofs.Rules.Soundness

/-!
# What moves take off the board

A pseudo-legal move takes what stands on its destination and, if a pawn takes in passing, what
stands one step behind that. Nothing else is lost, and nothing is won. In games the square behind
holds an enemy pawn; on a board that was set up otherwise it may hold anything.

## Main definitions

* `Position.TakesInPassing`, `Position.taken` — the squares that a move clears of their pieces.
* `Position.Rearranges` — a move neither loses nor doubles pieces.

## Main results

* `Position.Changes.tally_add` — the pieces that are left after a move.
* `Position.exists_rearranges` — so it is if the en passant square fits the board.
* `Position.takes_one_enemy_iff` — when a legal move takes one enemy piece at most.
-/
namespace ChessMachine

open Square (kingHome rookHome crossed castled)

/-- The rank on which the double steps of a colour's pawns end. -/
def Rank.fourth : Color → Rank
  | .white => ⟨File.d.index⟩
  | .black => ⟨File.e.index⟩

namespace Position

variable {p q : Position} {m : Move} {c : Color} {w : Wing} {kind : PieceKind} {src v : Square}

/-! ## Taking in passing -/

/-- A pawn changes its file and arrives on the en passant square. -/
def TakesInPassing (p : Position) (m : Move) : Prop :=
  p.piece? m.src = some ⟨p.toMove, .pawn⟩ ∧ p.enPassant = some m.dst ∧ m.src.file ≠ m.dst.file

instance (p : Position) (m : Move) : Decidable (p.TakesInPassing m) :=
  inferInstanceAs (Decidable (_ ∧ _ ∧ _))

/-- The square that a pawn clears by taking in passing: one step behind its destination. -/
def passed? (p : Position) (m : Move) : Option Square :=
  if p.TakesInPassing m then m.dst.behind p.toMove else none

/-- A move takes something on its destination or in passing. -/
def Captures (p : Position) (m : Move) : Prop :=
  p.isOccupied m.dst = true ∨ p.TakesInPassing m

instance (p : Position) (m : Move) : Decidable (p.Captures m) :=
  inferInstanceAs (Decidable (_ ∨ _))

/-- The squares whose contents a move takes. -/
def taken (p : Position) (m : Move) : List Square := m.dst :: (p.passed? m).toList

theorem victim?_eq_passed? (here : p.piece? m.src = some ⟨p.toMove, kind⟩) :
    p.victim? m ⟨p.toMove, kind⟩ = p.passed? m := by
  have pawn : p.piece? m.src = some ⟨p.toMove, .pawn⟩ ↔ kind = .pawn := by simp [here]
  simp only [victim?, passed?, TakesInPassing, pawn]

theorem passed?_ne (h : p.passed? m = some v) : v ≠ m.src ∧ v ≠ m.dst := by
  rw [passed?] at h
  split at h
  · rename_i passing
    rw [Square.behind_eq_ahead, Square.ahead_eq_some_iff] at h
    obtain ⟨file, rank⟩ := h
    constructor
    · rintro rfl
      exact passing.2.2 file
    · rintro rfl
      cases ht : p.toMove <;> simp only [ht, Color.opponent, Color.sign] at rank <;> omega
  · cases h

/-- A king takes nothing in passing. -/
theorem passed?_eq_none_of_king (here : p.piece? m.src = some ⟨p.toMove, .king⟩) :
    p.passed? m = none := by
  refine if_neg fun passing => ?_
  have pawn := here.symm.trans passing.1
  simp at pawn

/-! ## The board after a move -/

theorem piece?_crossed (can : p.canCastle c w = true) : p.piece? (crossed c w) = none := by
  simp only [canCastle, Bool.and_eq_true, List.all_eq_true, Bool.not_eq_true',
    isOccupied_eq_false_iff] at can
  exact can.2 w.rookTarget (by cases w <;> decide)

/-- The four squares of a castling move are different. -/
theorem nodup_castlingSquares (c : Color) (w : Wing) :
    [castled c w, crossed c w, rookHome c w, kingHome c].Nodup := by
  cases c <;> cases w <;> decide

theorem isCastling_castle (king : p.piece? (kingHome c) = some ⟨c, .king⟩) :
    p.isCastling (.castle c w) = true := by
  have two : (Move.castle c w).fileDistance = 2 := by cases c <;> cases w <;> rfl
  have here : p.piece? (Move.castle c w).src = some ⟨c, .king⟩ := king
  simp [isCastling, here, two, Piece.isKing]

/-- A move that castles leaves the castled board. -/
theorem isCastled_of_play (h : m ∈ p.pseudoLegalMoves) (played : p.play m = .ok q)
    (castling : p.isCastling m = true) :
    ∃ w, m = .castle p.toMove w ∧ p.canCastle p.toMove w = true ∧ p.IsCastled p.toMove w q := by
  obtain ⟨w, rfl, king, can⟩ := eq_castle_of_mem h castling
  have board := (played_of_play king played).board
  exact ⟨w, rfl, can, isCastled_of_view fun t =>
    (congrArg (Board.piece? · t) board).trans (piece?_boardAfter_castle (piece?_rookHome can) t)⟩

namespace Changes

variable (changes : Changes p q m)
include changes

/-- On the destination stands the piece, or what it was promoted to. -/
theorem piece?_dst (here : p.piece? m.src = some ⟨p.toMove, kind⟩) :
    q.piece? m.dst = some ⟨p.toMove, m.promotion.getD kind⟩ := by
  cases changes with
  | castles move king _ board =>
    subst move
    obtain rfl : kind = .king := by simpa using here.symm.trans king
    exact (board _).trans (if_pos rfl)
  | carries mover _ _ board =>
    obtain rfl : kind = _ := by simpa using here.symm.trans mover
    exact (board _).trans (if_pos rfl)

/-- A pawn that is taken in passing is gone. -/
theorem piece?_passed (passed : p.passed? m = some v) : q.piece? v = none := by
  cases changes with
  | castles move king _ _ =>
    subst move
    cases (passed?_eq_none_of_king king).symm.trans passed
  | carries here _ _ board =>
    rw [board, if_neg (passed?_ne passed).2, victim?_eq_passed? here, if_pos (.inl passed)]

/-- Castling apart, a move changes the square that it leaves and those that it clears. -/
theorem piece?_of_not_mem_taken (still : ¬ p.isCastling m = true) {t : Square}
    (src : t ≠ m.src) (taken : t ∉ p.taken m) : q.piece? t = p.piece? t := by
  simp only [Position.taken, List.mem_cons, Option.mem_toList, not_or] at taken
  cases changes with
  | castles move king _ _ =>
    subst move
    exact absurd (isCastling_castle king) still
  | carries here _ _ board =>
    rw [board, if_neg taken.1, victim?_eq_passed? here, if_neg (not_or.2 ⟨taken.2, src⟩)]

/-- A move takes the pieces on the squares that it clears, and no others. -/
theorem tally_add (counts : Color → Bool) :
    q.board.tally counts + (p.taken m).countP (fun t => Board.holds counts (p.piece? t))
      = p.board.tally counts := by
  have differ {squares : List Square} (nodup : squares.Nodup)
      (same : ∀ t, t ∉ squares → q.piece? t = p.piece? t) :
      q.board.tally counts + squares.countP (fun t => Board.holds counts (p.piece? t))
        = p.board.tally counts + squares.countP fun t => Board.holds counts (q.piece? t) :=
    Board.tally_add_countP counts nodup same
  cases changes with
  | @castles w move king can board =>
    subst move
    have after := isCastled_of_view board
    have changed := differ (nodup_castlingSquares p.toMove w) fun t ht => by
      simp only [List.mem_cons, List.not_mem_nil, or_false, not_or] at ht
      exact (after.same t ht.1 ht.2.1 ht.2.2.2 ht.2.2.1).symm
    have taken : p.taken (.castle p.toMove w) = [castled p.toMove w] := by
      rw [taken, passed?_eq_none_of_king king]
      rfl
    simp only [List.countP_cons, List.countP_nil, piece?_castled can, piece?_crossed can,
      piece?_rookHome can, king, after.king, after.rook, after.corner, after.home,
      Board.holds_none, Board.holds_some, Bool.false_eq_true, if_false] at changed
    simp only [taken, List.countP_cons, List.countP_nil, piece?_castled can, Board.holds_none,
      Bool.false_eq_true, if_false]
    omega
  | @carries kind here goes promotes board =>
    have apart := goes.src_ne_dst here
    have nodup : (m.src :: p.taken m).Nodup := by
      cases passed : p.passed? m with
      | none => simp [taken, passed, apart]
      | some v =>
        obtain ⟨src, dst⟩ := passed?_ne passed
        simp [taken, passed, apart, src.symm, dst.symm]
    have after : Changes p q m := .carries here goes promotes board
    have cleared : (p.passed? m).toList.countP (fun t => Board.holds counts (q.piece? t)) = 0 := by
      refine List.countP_eq_zero.2 fun v passed => ?_
      rw [after.piece?_passed (Option.mem_toList.1 passed)]
      exact Bool.false_ne_true
    have changed := differ nodup fun t ht => by
      simp only [taken, List.mem_cons, Option.mem_toList, not_or] at ht
      rw [board, if_neg ht.2.1, victim?_eq_passed? here, if_neg (not_or.2 ⟨ht.2.2, ht.1⟩)]
    -- the mover's piece is counted on the square it leaves, and then where it arrives
    have left : (m.src :: p.taken m).countP (fun t => Board.holds counts (p.piece? t))
        = (p.taken m).countP (fun t => Board.holds counts (p.piece? t))
          + (counts p.toMove).toNat := by
      rw [List.countP_cons, here, Board.holds_some]
      cases counts p.toMove <;> rfl
    have arrived : (m.src :: p.taken m).countP (fun t => Board.holds counts (q.piece? t))
        = (counts p.toMove).toNat := by
      rw [taken, List.countP_cons, List.countP_cons, cleared, after.piece?_src,
        after.piece?_dst here, Board.holds_some]
      cases counts p.toMove <;> rfl
    omega

/-- What a colour loses stood on the squares whose contents are taken. -/
theorem men_add (c : Color) :
    q.board.men c + (p.taken m).countP (fun t => decide (p.color? t = some c))
      = p.board.men c := by
  have same : (fun t => decide (p.color? t = some c))
      = fun t => Board.holds (· = c) (p.piece? t) := by
    funext t
    rw [color?]
    cases p.piece? t with
    | none => rfl
    | some piece => exact decide_eq_decide.2 Option.some_inj
  rw [same]
  exact changes.tally_add (· = c)

/-- What the board loses stood on the squares whose contents are taken. -/
theorem count_add : q.board.count + (p.taken m).countP p.isOccupied = p.board.count := by
  have same : p.isOccupied = fun t => Board.holds (fun _ => true) (p.piece? t) := by
    funext t
    rw [isOccupied]
    cases p.piece? t <;> rfl
  rw [Board.count_eq_tally, Board.count_eq_tally, same]
  exact changes.tally_add fun _ => true

end Changes

/-- A piece that stands where a move ends is an enemy. -/
theorem Goes.isOccupied_iff {dst : Square} (goes : p.Goes c src kind dst) :
    p.isOccupied dst = true ↔ p.color? dst = some c.opponent := by
  rw [isOccupied, color?]
  cases there : p.piece? dst with
  | none => simp
  | some piece =>
    have own : piece.color ≠ c := fun own =>
      goes.other (by rw [color?, there, Option.map_some, own])
    simp [Color.eq_opponent_of_ne own]

/-! ## En passant squares that fit the board -/

/-- The en passant square is empty, and the pawn that has passed it stands right in front of it,
as its own side sees it. -/
def PassingFits (p : Position) : Prop :=
  ∀ e, p.enPassant = some e → p.piece? e = none ∧
    ∃ front, e.ahead p.toMove.opponent 1 = some front ∧
      p.piece? front = some ⟨p.toMove.opponent, .pawn⟩

namespace PassingFits

variable (fits : p.PassingFits)
include fits

/-- The pawn in front of the en passant square is the one that is taken. -/
theorem exists_passed (passing : p.TakesInPassing m) :
    ∃ v, m.dst.behind p.toMove = some v ∧ p.passed? m = some v ∧
      p.piece? v = some ⟨p.toMove.opponent, .pawn⟩ := by
  obtain ⟨-, front, ahead, pawn⟩ := fits _ passing.2.1
  have behind : m.dst.behind p.toMove = some front := by rw [Square.behind_eq_ahead, ahead]
  exact ⟨front, behind, (if_pos passing).trans behind, pawn⟩

/-- A move clears no square of its own side, and one of the enemy if it captures. -/
theorem countP_taken (h : m ∈ p.pseudoLegalMoves) (d : Color) :
    (p.taken m).countP (fun t => decide (p.color? t = some d))
      = if d = p.toMove.opponent ∧ p.Captures m then 1 else 0 := by
  obtain ⟨kind, here, goes, -⟩ := mem_pseudoLegalMoves.1 h
  by_cases passing : p.TakesInPassing m
  · obtain ⟨v, -, passed, pawn⟩ := fits.exists_passed passing
    have free : p.color? m.dst = none := congrArg (Option.map Piece.color) (fits _ passing.2.1).1
    have enemy : p.color? v = some p.toMove.opponent := congrArg (Option.map Piece.color) pawn
    have captures : p.Captures m := .inr passing
    simp [taken, passed, free, enemy, captures, List.countP_cons, eq_comm]
  · have passed : p.passed? m = none := if_neg passing
    have captures : p.Captures m ↔ p.color? m.dst = some p.toMove.opponent :=
      (or_iff_left passing).trans goes.isOccupied_iff
    have enemy : p.color? m.dst = some d ↔ d = p.toMove.opponent ∧ p.Captures m := by
      rw [captures]
      constructor
      · intro color
        obtain rfl : d = p.toMove.opponent :=
          Color.eq_opponent_of_ne fun own => goes.other (own ▸ color)
        exact ⟨rfl, color⟩
      · rintro ⟨rfl, color⟩
        exact color
    simp only [taken, passed, Option.toList_none, List.countP_cons, List.countP_nil, enemy,
      decide_eq_true_eq, Nat.zero_add]

end PassingFits

/-- What a pseudo-legal move does to the board, square by square. -/
structure Rearranges (p q : Position) (m : Move) (kind : PieceKind) : Prop where
  source : q.piece? m.src = none
  target : q.piece? m.dst = some ⟨p.toMove, m.promotion.getD kind⟩
  /-- A pawn that is taken in passing stood one step behind the destination. -/
  passing : p.TakesInPassing m → ∃ v, m.dst.behind p.toMove = some v ∧
    p.piece? v = some ⟨p.toMove.opponent, .pawn⟩ ∧ q.piece? v = none ∧
    ∀ t, t ≠ m.src → t ≠ m.dst → t ≠ v → q.piece? t = p.piece? t
  /-- The rook goes from its corner to the square that the king crosses. -/
  castling : p.isCastling m = true → ∃ w, m = .castle p.toMove w ∧
    p.piece? (rookHome p.toMove w) = some ⟨p.toMove, .rook⟩ ∧
    q.piece? (rookHome p.toMove w) = none ∧
    q.piece? (crossed p.toMove w) = some ⟨p.toMove, .rook⟩ ∧
    ∀ t, t ≠ m.src → t ≠ m.dst → t ≠ rookHome p.toMove w → t ≠ crossed p.toMove w →
      q.piece? t = p.piece? t
  other : ¬ p.TakesInPassing m → ¬ p.isCastling m = true →
    ∀ t, t ≠ m.src → t ≠ m.dst → q.piece? t = p.piece? t

theorem not_isCastling_of_takesInPassing (passing : p.TakesInPassing m) :
    ¬ p.isCastling m = true := by
  simp [isCastling, passing.1, Piece.isKing]

/-- A pseudo-legal move rearranges the board if the en passant square fits it. -/
theorem rearranges_of_play (fits : p.PassingFits) (h : m ∈ p.pseudoLegalMoves)
    (here : p.piece? m.src = some ⟨p.toMove, kind⟩) (played : p.play m = .ok q) :
    p.Rearranges q m kind := by
  have changes := changes_of_play h played
  refine ⟨changes.piece?_src, changes.piece?_dst here, fun passing => ?_, fun castling => ?_,
    fun direct still t src dst => ?_⟩
  · obtain ⟨v, behind, passed, pawn⟩ := fits.exists_passed passing
    refine ⟨v, behind, pawn, changes.piece?_passed passed, fun t src dst apart => ?_⟩
    refine changes.piece?_of_not_mem_taken (not_isCastling_of_takesInPassing passing) src ?_
    simp [taken, passed, dst, apart]
  · obtain ⟨w, rfl, can, after⟩ := isCastled_of_play h played castling
    exact ⟨w, rfl, piece?_rookHome can, after.corner, after.rook,
      fun t src dst corner passed => (after.same t dst passed src corner).symm⟩
  · refine changes.piece?_of_not_mem_taken still src ?_
    simp [taken, passed?, direct, dst]

/-- If the en passant square fits the board, a pseudo-legal move neither loses nor doubles pieces:
the mover keeps all of them, and the opponent loses one by a capture and none otherwise. -/
theorem exists_rearranges (fits : p.PassingFits) (h : m ∈ p.pseudoLegalMoves)
    (half : p.halfmove.toNat < 0xffffffffffffffff) (full : p.fullmove.toNat < 0xffffffffffffffff) :
    ∃ kind q, p.piece? m.src = some ⟨p.toMove, kind⟩ ∧ p.play m = .ok q ∧
      p.Rearranges q m kind ∧ q.board.men p.toMove = p.board.men p.toMove ∧
      q.board.men p.toMove.opponent + (if p.Captures m then 1 else 0)
        = p.board.men p.toMove.opponent := by
  obtain ⟨kind, here, -⟩ := mem_pseudoLegalMoves.1 h
  obtain ⟨q, played, -⟩ := exists_play here half full
  have left := (changes_of_play h played).men_add
  refine ⟨kind, q, here, played, rearranges_of_play fits h here played, ?_, ?_⟩
  · have own := left p.toMove
    rwa [fits.countP_taken h, if_neg fun enemy => p.toMove.ne_opponent enemy.1] at own
  · have enemy := left p.toMove.opponent
    simpa only [fits.countP_taken h, true_and] using enemy

/-- A black pawn has just passed the white one. -/
def passedPawn : Position where
  board := (((Board.empty.place ⟨.white, .king⟩ (kingHome .white)).place ⟨.black, .king⟩
    (kingHome .black)).place ⟨.white, .pawn⟩ ⟨.e, Rank.fourth .black⟩).place ⟨.black, .pawn⟩
    ⟨.d, Rank.fourth .black⟩
  toMove := .white
  rights := .empty
  enPassant := some ⟨.d, Rank.third .black⟩
  halfmove := 0
  fullmove := 9

def takingInPassing : Move := ⟨⟨.e, Rank.fourth .black⟩, ⟨.d, Rank.third .black⟩, none⟩

theorem fits_passedPawn : passedPawn.PassingFits := by
  intro e he
  obtain rfl := Option.some.inj he
  exact ⟨rfl, _, rfl, rfl⟩

theorem exists_rearranges_passedPawn :
    ∃ q, passedPawn.play takingInPassing = .ok q ∧
      q.piece? ⟨.d, Rank.fourth .black⟩ = none ∧
      q.board.men .white = 2 ∧ q.board.men .black = 1 := by
  have mem : takingInPassing ∈ passedPawn.pseudoLegalMoves := by decide +kernel
  have passing : passedPawn.TakesInPassing takingInPassing := by decide
  obtain ⟨kind, q, -, played, after, own, enemy⟩ :=
    exists_rearranges fits_passedPawn mem (by decide) (by decide)
  obtain ⟨v, behind, -, cleared, -⟩ := after.passing passing
  obtain rfl := Option.some.inj behind
  rw [if_pos (.inr passing)] at enemy
  have before : passedPawn.board.men .white = 2 ∧ passedPawn.board.men .black = 2 := by
    decide +kernel
  exact ⟨q, played, cleared, own.trans before.1, Nat.succ.inj (enemy.trans before.2)⟩

/-! ## En passant squares that do not fit the board -/

/-- A pawn takes a piece of its own side in passing, or takes one in passing and another one where
it arrives. -/
def Overreaches (p : Position) (m : Move) : Prop :=
  ∃ v, p.passed? m = some v ∧
    (p.color? v = some p.toMove ∨ p.isOccupied m.dst = true ∧ p.isOccupied v = true)

/-- A move takes at most one piece, and none of its own side, unless it overreaches. -/
theorem takes_one_enemy_iff_of_play (h : m ∈ p.pseudoLegalMoves) (played : p.play m = .ok q) :
    (p.board.count ≤ q.board.count + 1 ∧ q.board.men p.toMove = p.board.men p.toMove) ↔
      ¬ p.Overreaches m := by
  obtain ⟨kind, here, goes, -⟩ := mem_pseudoLegalMoves.1 h
  have changes := changes_of_play h played
  have own := changes.men_add p.toMove
  have all := changes.count_add
  have other : decide (p.color? m.dst = some p.toMove) = false := decide_eq_false goes.other
  cases passed : p.passed? m with
  | none =>
    have fine : ¬ p.Overreaches m := by simp [Overreaches, passed]
    simp only [taken, passed, Option.toList_none, List.countP_cons, List.countP_nil, other]
      at own all
    refine iff_of_true ⟨?_, ?_⟩ fine
    · split at all <;> omega
    · simpa using own
  | some v =>
    have bad : p.Overreaches m ↔
        p.color? v = some p.toMove ∨ p.isOccupied m.dst = true ∧ p.isOccupied v = true := by
      simp [Overreaches, passed]
    simp only [taken, passed, Option.toList_some, List.countP_cons, List.countP_nil, other,
      decide_eq_true_eq] at own all
    have kept : q.board.men p.toMove = p.board.men p.toMove ↔ ¬ p.color? v = some p.toMove := by
      by_cases mine : p.color? v = some p.toMove <;> simp [mine] at own ⊢ <;> omega
    have few : p.board.count ≤ q.board.count + 1 ↔
        ¬ (p.isOccupied m.dst = true ∧ p.isOccupied v = true) := by
      by_cases first : p.isOccupied m.dst = true <;>
        by_cases second : p.isOccupied v = true <;> simp [first, second] at all ⊢ <;> omega
    rw [bad, kept, few, not_or, and_comm]

/-- A king is lost only by a move that overreaches. -/
theorem king?_of_play (h : m ∈ p.pseudoLegalMoves) (played : p.play m = .ok q)
    (fine : ¬ p.Overreaches m) (king : p.king? p.toMove ≠ none) : q.king? p.toMove ≠ none := by
  rw [king?_ne_none_iff] at king ⊢
  obtain ⟨k, standing⟩ := king
  obtain ⟨kind, here, goes, promotes⟩ := mem_pseudoLegalMoves.1 h
  have changes := changes_of_play h played
  have color : p.color? k = some p.toMove := congrArg (Option.map Piece.color) standing
  by_cases moved : k = m.src
  · subst moved
    obtain rfl : kind = .king := by simpa using here.symm.trans standing
    have stays : m.promotion.getD .king = .king := promotes.getD_eq_king_iff.2 rfl
    exact ⟨m.dst, (changes.piece?_dst here).trans (by rw [stays])⟩
  · by_cases castling : p.isCastling m = true
    · obtain ⟨w, -, -, after⟩ := isCastled_of_play h played castling
      exact ⟨_, after.king⟩
    · refine ⟨k, (changes.piece?_of_not_mem_taken castling moved fun mem => ?_).trans standing⟩
      rcases List.mem_cons.1 mem with rfl | passed
      · exact goes.other color
      · exact fine ⟨k, Option.mem_toList.1 passed, .inl color⟩

/-- No pawn overreaches where the en passant square fits the board. -/
theorem PassingFits.not_overreaches (fits : p.PassingFits) : ¬ p.Overreaches m := by
  rintro ⟨v, passed, bad⟩
  have passing : p.TakesInPassing m := Decidable.byContradiction fun direct => by
    cases passed.symm.trans (if_neg direct)
  obtain ⟨u, -, passed', pawn⟩ := fits.exists_passed passing
  obtain rfl := Option.some.inj (passed.symm.trans passed')
  have enemy : p.color? v = some p.toMove.opponent := congrArg (Option.map Piece.color) pawn
  have free := isOccupied_eq_false_iff.2 (fits _ passing.2.1).1
  simp [enemy, free, p.toMove.ne_opponent.symm] at bad

/-- A legal move takes at most one piece and none of its own side exactly if it does not
overreach, and then it does not lose the king either. No move overreaches where the en passant
square fits the board. -/
theorem takes_one_enemy_iff {moves : List Move} (legal : p.legalMoves = .ok moves)
    (mem : m ∈ moves) :
    ∃ q, p.play m = .ok q ∧
      ((p.board.count ≤ q.board.count + 1 ∧ q.board.men p.toMove = p.board.men p.toMove) ↔
        ¬ p.Overreaches m) ∧
      (¬ p.Overreaches m → p.king? p.toMove ≠ none → q.king? p.toMove ≠ none) ∧
      (p.PassingFits → ¬ p.Overreaches m) := by
  obtain ⟨pseudoLegal, answer⟩ := of_mem_legalMoves legal mem
  obtain ⟨q, played, -⟩ := exists_play_of_isLegal answer
  exact ⟨q, played, takes_one_enemy_iff_of_play pseudoLegal played,
    king?_of_play pseudoLegal played, PassingFits.not_overreaches⟩

theorem takes_one_enemy_passedPawn :
    ∃ moves q, passedPawn.legalMoves = .ok moves ∧ takingInPassing ∈ moves ∧
      passedPawn.play takingInPassing = .ok q ∧ passedPawn.board.count ≤ q.board.count + 1 ∧
      q.king? .white ≠ none := by
  have kings : ∀ s ∈ Square.all, passedPawn.piece? s = some ⟨.white, .king⟩ ↔
      s = kingHome .white := by decide +kernel
  have few : passedPawn.allowedMoves.length ≤ 218 := by decide +kernel
  have legal := legalMoves_of_le ⟨_, fun s => kings s s.mem_all⟩ (by decide) (by decide) few
  have mem : takingInPassing ∈ passedPawn.allowedMoves := by decide +kernel
  obtain ⟨q, played, law, king, fits⟩ := takes_one_enemy_iff legal mem
  have fine := fits fits_passedPawn
  exact ⟨_, q, legal, mem, played, (law.2 fine).1, king fine (by decide +kernel)⟩

/-- The en passant square lies in front of the white king, beside a white pawn. -/
def strayPassing : Position where
  board := ((Board.empty.place ⟨.white, .pawn⟩ ⟨.d, Rank.fourth .white⟩).place ⟨.white, .king⟩
    ⟨.e, Rank.fourth .white⟩).place ⟨.black, .king⟩ ⟨.h, Rank.first .white⟩
  toMove := .white
  rights := .empty
  enPassant := some ⟨.e, Rank.fourth .black⟩
  halfmove := 0
  fullmove := 1

def passingTheKing : Move := ⟨⟨.d, Rank.fourth .white⟩, ⟨.e, Rank.fourth .black⟩, none⟩

/-- Notation may put the en passant square there, the move is legal, and it takes the king off. -/
theorem takes_own_king_strayPassing :
    ofFen "8/8/8/8/3PK3/8/8/7k w - e5 0 1" = .ok strayPassing ∧
      ∃ moves q, strayPassing.legalMoves = .ok moves ∧ passingTheKing ∈ moves ∧
        strayPassing.play passingTheKing = .ok q ∧
        strayPassing.king? .white ≠ none ∧ q.king? .white = none ∧
        q.board.men .white < strayPassing.board.men .white := by
  have kings : ∀ s ∈ Square.all, strayPassing.piece? s = some ⟨.white, .king⟩ ↔
      s = ⟨.e, Rank.fourth .white⟩ := by decide +kernel
  have few : strayPassing.allowedMoves.length ≤ 218 := by decide +kernel
  have legal := legalMoves_of_le ⟨_, fun s => kings s s.mem_all⟩ (by decide) (by decide) few
  have here : strayPassing.piece? passingTheKing.src = some ⟨.white, .pawn⟩ := rfl
  obtain ⟨q, played, board, -⟩ := exists_play here (by decide) (by decide)
  refine ⟨rfl, _, q, legal, by decide +kernel, played, by decide +kernel, ?_, ?_⟩
  · show Square.all.find? (fun s => q.board.piece? s = some ⟨.white, .king⟩) = none
    rw [board]
    decide +kernel
  · rw [board]
    decide +kernel

end Position

end ChessMachine
