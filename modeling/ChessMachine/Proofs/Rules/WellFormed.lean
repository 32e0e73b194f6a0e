import ChessMachine.Proofs.Rules.Soundness

/-!
# Well-formed positions

The rights, the en passant square and the pawns of a well-formed position fit its board: whoever
may castle has king and rook at home, an en passant square lies on the way of a pawn that has just
gone two squares, and no pawn stands on a first or last rank. Pseudo-legal moves, whether legal or
not, lead from well-formed positions to well-formed ones. The parts need each other: a pawn taken
in passing is no king or rook at home because the en passant square lies behind a pawn.

## Main definitions

* `Position.WellFormed` — the invariant.
* `Position.PseudoLegalRun` — pseudo-legal moves played one after the other.

## Main results

* `Position.WellFormed.of_play` — a pseudo-legal move keeps a position well-formed.
* `Position.wellFormed_of_pseudoLegalRun` — so do all pseudo-legal moves from the start of a game.
-/
namespace ChessMachine

open Square (kingHome rookHome crossed castled)

theorem Rank.first_injective {c d : Color} (h : first c = first d) : c = d := by
  cases c <;> cases d <;> first | rfl | exact absurd h (by decide)

namespace CastlingRights

variable {c : Color} {w : Wing} {s : Square}

theorem holds_remove (r r' : CastlingRights) (c : Color) (w : Wing) :
    (r.remove r').holds c w = (r.holds c w && !r'.holds c w) := by
  rw [remove, holds_ofFn]

/-- The right to castle depends on the home squares of king and rook. -/
theorem holds_revokedBy_iff :
    (revokedBy s).holds c w = true ↔ s = kingHome c ∨ s = rookHome c w := by
  obtain ⟨f, r⟩ := s
  simp only [revokedBy, holds_ofFn, kingHome, rookHome, Square.mk.injEq, Bool.and_eq_true,
    Bool.or_eq_true, decide_eq_true_eq]
  grind

end CastlingRights

namespace Position

variable {p q : Position} {m : Move} {c d : Color} {w : Wing} {kind : PieceKind} {s e : Square}

/-- A right is left after a move that neither leaves nor reaches a home square, and that is no
king's of that colour. -/
theorem holds_rightsAfter_iff : (p.rightsAfter m ⟨c, kind⟩).holds d w = true ↔
    p.rights.holds d w = true ∧ ¬ (m.src = kingHome d ∨ m.src = rookHome d w) ∧
      ¬ (m.dst = kingHome d ∨ m.dst = rookHome d w) ∧ (kind = .king → d ≠ c) := by
  have lost (r r' : CastlingRights) : (r.remove r').holds d w = true ↔
      r.holds d w = true ∧ ¬ r'.holds d w = true := by
    rw [CastlingRights.holds_remove, Bool.and_eq_true, Bool.not_eq_true', Bool.not_eq_true]
  have both : (CastlingRights.both c).holds d w = true ↔ d = c := by
    rw [CastlingRights.both, CastlingRights.holds_ofFn, decide_eq_true_iff]
  rw [rightsAfter]
  by_cases king : kind = .king
  · simp only [king, if_true, lost, CastlingRights.holds_revokedBy_iff, both, and_assoc,
      forall_const, ne_eq]
  · simp only [king, if_false, lost, CastlingRights.holds_revokedBy_iff, and_assoc, false_imp_iff,
      and_true]

/-- Rights, en passant square and pawns fit the board. -/
structure WellFormed (p : Position) : Prop where
  rights : ∀ c w, p.rights.holds c w = true →
    p.piece? (kingHome c) = some ⟨c, .king⟩ ∧ p.piece? (rookHome c w) = some ⟨c, .rook⟩
  /-- The square and the one behind it are empty, and the pawn stands in front, as its own side
  sees it. -/
  enPassant : ∀ e, p.enPassant = some e → e.rank = Rank.third p.toMove.opponent ∧
    p.piece? e = none ∧
    (∃ back, e.behind p.toMove.opponent = some back ∧ p.piece? back = none) ∧
    ∃ front, e.ahead p.toMove.opponent 1 = some front ∧
      p.piece? front = some ⟨p.toMove.opponent, .pawn⟩
  pawns : ∀ s c, p.piece? s = some ⟨c, .pawn⟩ → ∀ d, s.rank ≠ Rank.first d

/-! ## The parts after a move -/

/-- No pawn moves to a first or last rank and stays a pawn. -/
theorem rank_ne_of_pawn (goes : p.Goes c src kind m.dst) (promotes : m.Promotes c kind)
    (pawn : m.promotion.getD kind = .pawn) (d : Color) : m.dst.rank ≠ Rank.first d := by
  have pieces : ∀ k ∈ PieceKind.promotions, k ≠ .pawn := by decide
  rw [Move.Promotes] at promotes
  split at promotes
  · obtain ⟨k, hk, promotion⟩ := promotes
    rw [promotion] at pawn
    exact absurd pawn (pieces k hk)
  · rename_i short
    obtain rfl : kind = .pawn := by rwa [promotes] at pawn
    have last : m.dst.rank ≠ Rank.eighth c := fun same => short ⟨rfl, same⟩
    have ahead := goes.rank_of_pawn
    -- a step forward does not end on the first rank of the pawn's own side
    rw [Rank.eighth] at last
    cases c <;> cases d <;>
      simp only [Color.opponent, Color.sign, Rank.first, ne_eq, Rank.eq_iff] at * <;> omega

/-- The square behind the en passant square is the one that the pawn has left. -/
theorem behind_of_enPassantAfter (h : enPassantAfter m ⟨c, kind⟩ = some e) :
    kind = .pawn ∧ e.behind c = some m.src := by
  rw [enPassantAfter] at h
  split at h
  · rename_i double
    obtain ⟨file, rank⟩ := Square.ahead_eq_some_iff.1 h
    refine ⟨double.1, ?_⟩
    rw [Square.behind_eq_ahead, Square.ahead_eq_some_iff]
    refine ⟨file.symm, ?_⟩
    cases c <;> simp only [Color.opponent, Color.sign] at * <;> omega
  · cases h

namespace WellFormed

variable (wf : p.WellFormed) (h : m ∈ p.pseudoLegalMoves) (played : p.play m = .ok q)
include wf h played

/-- A right that a move leaves has its king and its rook at home. -/
theorem rights_of_play (held : q.rights.holds c w = true) :
    q.piece? (kingHome c) = some ⟨c, .king⟩ ∧ q.piece? (rookHome c w) = some ⟨c, .rook⟩ := by
  obtain ⟨kind, here, -⟩ := mem_pseudoLegalMoves.1 h
  rw [(played_of_play here played).rights, holds_rightsAfter_iff] at held
  obtain ⟨held, leaves, reaches, other⟩ := held
  obtain ⟨king, rook⟩ := wf.rights c w held
  rw [not_or] at leaves reaches
  have behind := fun e he => (wf.enPassant e he).2.2.2
  -- a pawn taken in passing stands on neither of the squares, and castling is on another rank
  have stays {t : Square} {k : PieceKind} (first : t.rank = Rank.first c)
      (piece : p.piece? t = some ⟨c, k⟩) (isPiece : k ≠ .pawn) (src : m.src ≠ t)
      (dst : m.dst ≠ t) : q.piece? t = some ⟨c, k⟩ := by
    rw [(changes_of_play h played).piece?_eq src.symm dst.symm, piece]
    · intro kind victim
      have pawn := piece?_of_victim? behind victim
      simp_all
    · intro mover same
      obtain rfl : kind = .king := by simpa using here.symm.trans mover
      exact other rfl (Rank.first_injective (first.symm.trans same))
  exact ⟨stays rfl king nofun leaves.1 reaches.1, stays rfl rook nofun leaves.2 reaches.2⟩

/-- No move leaves a pawn on the first rank of a colour. -/
theorem pawns_of_play (pawn : q.piece? s = some ⟨c, .pawn⟩) (d : Color) :
    s.rank ≠ Rank.first d := by
  cases changes_of_play h played with
  | castles _ _ _ board =>
    rw [board] at pawn
    refine wf.pawns s c ?_ d
    grind
  | carries _ goes promotes board =>
    rw [board] at pawn
    split at pawn
    · rename_i there
      obtain ⟨rfl, kept⟩ := Piece.mk.injEq .. ▸ Option.some.inj pawn
      exact there ▸ rank_ne_of_pawn goes promotes kept d
    · split at pawn
      · cases pawn
      · exact wf.pawns s c pawn d

/-- A pseudo-legal move leads from a well-formed position to a well-formed one. -/
theorem of_play : q.WellFormed := by
  obtain ⟨kind, here, -⟩ := mem_pseudoLegalMoves.1 h
  have after := played_of_play here played
  have turn : q.toMove.opponent = p.toMove := by rw [after.toMove, Color.opponent_opponent]
  refine ⟨fun c w held => wf.rights_of_play h played held, fun e he => ?_,
    fun s c pawn d => wf.pawns_of_play h played pawn d⟩
  obtain ⟨free, third, ahead⟩ := enPassant_of_play h played he
  obtain ⟨rfl, behind⟩ := behind_of_enPassantAfter (after.enPassant.symm.trans he)
  rw [turn]
  exact ⟨third, free, ⟨m.src, behind, (changes_of_play h played).piece?_src⟩, ahead⟩

end WellFormed

/-! ## Runs of pseudo-legal moves -/

/-- Pseudo-legal moves that lead from one position to another. -/
inductive PseudoLegalRun : Position → List Move → Position → Prop where
  | nil (p : Position) : PseudoLegalRun p [] p
  | cons {p q r : Position} {m : Move} {ms : List Move} (mem : m ∈ p.pseudoLegalMoves)
      (played : p.play m = .ok q) (rest : PseudoLegalRun q ms r) : PseudoLegalRun p (m :: ms) r

/-- Pseudo-legal moves, however many, keep a position well-formed. -/
theorem WellFormed.of_run {ms : List Move} (wf : p.WellFormed) (run : PseudoLegalRun p ms q) :
    q.WellFormed := by
  induction run with
  | nil => exact wf
  | cons mem played _ ih => exact ih (wf.of_play mem played)

/-- Pawns on their home ranks are on neither first rank. -/
theorem rank_ne_of_pawns_home {b : Board}
    (home : ∀ s ∈ Square.all, (b.piece? s).map Piece.kind = some .pawn →
      s.rank = Rank.second .white ∨ s.rank = Rank.second .black)
    (pawn : b.piece? s = some ⟨c, .pawn⟩) (d : Color) : s.rank ≠ Rank.first d := by
  rcases home s s.mem_all (by rw [pawn]; rfl) with rank | rank <;> rw [rank] <;> cases d <;> decide

theorem wellFormed_start : Position.start.WellFormed := by
  rw [start_eq]
  refine ⟨fun c w _ => ?_, nofun, fun s c pawn => rank_ne_of_pawns_home ?_ pawn⟩
  · cases c <;> cases w <;> exact ⟨rfl, rfl⟩
  · decide +kernel

/-- The start of a game is well-formed, a pseudo-legal move leads from a well-formed position to a
well-formed one, and so does every run of pseudo-legal moves. -/
theorem wellFormed_of_pseudoLegalRun :
    Position.start.WellFormed ∧
      (∀ p : Position, p.WellFormed → ∀ m ∈ p.pseudoLegalMoves,
        p.halfmove.toNat < 0xffffffffffffffff → p.fullmove.toNat < 0xffffffffffffffff →
          ∃ q, p.play m = .ok q ∧ q.WellFormed) ∧
      ∀ p ms q, p.WellFormed → PseudoLegalRun p ms q → q.WellFormed := by
  refine ⟨wellFormed_start, fun p wf m mem half full => ?_, fun p ms q wf run => wf.of_run run⟩
  obtain ⟨kind, here, -⟩ := mem_pseudoLegalMoves.1 mem
  obtain ⟨q, played, -⟩ := exists_play here half full
  exact ⟨q, played, wf.of_play mem played⟩

/-- Black may castle, and a white pawn may capture the rook. -/
def cornerCapture : Position where
  board := (((Board.empty.place ⟨.white, .king⟩ (kingHome .white)).place ⟨.white, .pawn⟩
    ⟨.b, Rank.second .black⟩).place ⟨.black, .king⟩ (kingHome .black)).place ⟨.black, .rook⟩
    (rookHome .black .long)
  toMove := .white
  rights := .single .black .long
  enPassant := none
  halfmove := 7
  fullmove := 40

def knighting : Move := ⟨⟨.b, Rank.second .black⟩, rookHome .black .long, some .knight⟩

theorem wellFormed_cornerCapture : cornerCapture.WellFormed := by
  refine ⟨fun c w held => ?_, nofun, fun s c pawn => rank_ne_of_pawns_home ?_ pawn⟩
  · cases c <;> cases w <;> first | exact ⟨rfl, rfl⟩ | exact absurd held (by decide)
  · decide +kernel

/-- The capture ends the right to castle. -/
theorem wellFormed_knighting :
    ∃ q, PseudoLegalRun cornerCapture [knighting] q ∧ q.WellFormed ∧ q.rights = .empty := by
  obtain ⟨-, step, runs⟩ := wellFormed_of_pseudoLegalRun
  have mem : knighting ∈ cornerCapture.pseudoLegalMoves := by decide +kernel
  obtain ⟨q, played, -⟩ := step _ wellFormed_cornerCapture _ mem (by decide) (by decide)
  have run := PseudoLegalRun.cons mem played (.nil q)
  have here : cornerCapture.piece? knighting.src = some ⟨.white, .pawn⟩ := rfl
  have rights : q.rights = .empty := by
    rw [(played_of_play here played).rights]
    rfl
  exact ⟨q, run, runs _ _ q wellFormed_cornerCapture run, rights⟩

end Position

end ChessMachine
