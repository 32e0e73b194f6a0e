import ChessMachine.Proofs.Rules.Distinct
import ChessMachine.Proofs.Rules.WellFormed

/-!
# The rules of movement

What the rules ask of a move, kind by kind, without reference to how moves are looked for: how far
a piece goes, over which squares, and what stands on its way. The pseudo-legal moves are exactly
those that keep the rules.

## Main definitions

* `Position.CastlingIsOpen` — the right, the rook and the empty squares between.
* `Position.Obeys` — the rule for each kind of piece.

## Main results

* `Position.goes_iff_obeys` — the generators keep the rules.
* `Position.pseudoLegalMoves_follow_rules` — the list of moves, exactly.
-/
namespace ChessMachine

/-- The side of the board towards which a king castles. -/
def Wing.side : Wing → Int
  | short => 1
  | long => -1

/-- A file that lies strictly between two others, whichever comes first. -/
def File.IsBetween (f g h : File) : Prop :=
  g.index < f.index ∧ f.index < h.index ∨ h.index < f.index ∧ f.index < g.index

theorem Wing.mem_between_iff {w : Wing} {f : File} :
    f ∈ w.between ↔ f.IsBetween File.kingHome w.rookFile := by
  have all : ∀ w ∈ Wing.all, ∀ i : Fin 8, File.mk i ∈ w.between ↔
      File.kingHome.index < i ∧ i < w.rookFile.index ∨
        w.rookFile.index < i ∧ i < File.kingHome.index := by decide
  exact all w (by cases w <;> decide) f.index

/-- The king arrives two files aside. -/
theorem Square.offset_kingHome (c : Color) (w : Wing) :
    (kingHome c).offset (2 * w.side) 0 = some (castled c w) := by
  cases c <;> cases w <;> rfl

namespace Position

/-- Castling is open to a king at home: the right is held, the rook stands in its corner, and the
squares between the two are empty. -/
structure CastlingIsOpen (p : Position) (c : Color) (w : Wing) : Prop where
  right : p.rights.holds c w = true
  rook : p.piece? ⟨w.rookFile, Rank.first c⟩ = some ⟨c, .rook⟩
  empty : ∀ f : File, f.IsBetween File.kingHome w.rookFile → p.piece? ⟨f, Rank.first c⟩ = none

/-- A pawn advances one square, or two from its second rank, over empty squares only. -/
def PawnAdvances (p : Position) (c : Color) (src dst : Square) : Prop :=
  src.ahead c 1 = some dst ∧ p.piece? dst = none ∨
    src.rank = Rank.second c ∧ ∃ mid, src.ahead c 1 = some mid ∧ p.piece? mid = none ∧
      src.ahead c 2 = some dst ∧ p.piece? dst = none

/-- A pawn captures one square diagonally forward, where an enemy stands or where it takes in
passing. -/
def PawnCaptures (p : Position) (c : Color) (src dst : Square) : Prop :=
  ∃ d ∈ Direction.pawn c, src.step d = some dst ∧
    (p.color? dst = some c.opponent ∨ p.enPassant = some dst ∧ p.piece? dst = none)

/-- A king castles from its home two files towards the rook. -/
def KingCastles (p : Position) (c : Color) (src dst : Square) : Prop :=
  ∃ w, src = ⟨File.e, Rank.first c⟩ ∧ src.offset (2 * w.side) 0 = some dst ∧ p.CastlingIsOpen c w

/-- What the rules ask of the squares of a move, by the kind of the piece. -/
def Obeys (p : Position) (c : Color) (src dst : Square) : PieceKind → Prop
  | .pawn => p.PawnAdvances c src dst ∨ p.PawnCaptures c src dst
  | .knight => ∃ d ∈ Direction.knight, src.step d = some dst
  | .bishop => ∃ d ∈ Direction.diagonal, p.Sees src d dst
  | .rook => ∃ d ∈ Direction.straight, p.Sees src d dst
  | .queen => ∃ d ∈ Direction.royal, p.Sees src d dst
  | .king => (∃ d ∈ Direction.royal, src.step d = some dst) ∨ p.KingCastles c src dst

variable {p : Position} {c : Color} {src dst : Square} {w : Wing} {kind : PieceKind} {m : Move}

/-- The test for castling asks for the right, the rook and the empty squares, and for no more. -/
theorem canCastle_iff : p.canCastle c w = true ↔ p.CastlingIsOpen c w := by
  simp only [canCastle, Bool.and_eq_true, decide_eq_true_eq, List.all_eq_true, Bool.not_eq_true',
    isOccupied_eq_false_iff, Wing.mem_between_iff]
  constructor
  · rintro ⟨⟨right, rook⟩, empty⟩
    exact ⟨right, rook, empty⟩
  · rintro ⟨right, rook, empty⟩
    exact ⟨⟨right, rook⟩, empty⟩

/-- No piece stands where a king castles to. -/
theorem CastlingIsOpen.piece?_castled (h : p.CastlingIsOpen c w) :
    p.piece? (Square.castled c w) = none := by
  refine h.empty w.kingTarget (Wing.mem_between_iff.1 ?_)
  cases w <;> decide

theorem color?_ne_of_empty (empty : p.piece? dst = none) : p.color? dst ≠ some c := by
  rw [color?, empty]
  intro same
  cases same

/-- A pawn goes where it advances or captures. -/
theorem goes_pawn_iff : p.Goes c src .pawn dst ↔
    p.color? dst ≠ some c ∧ (p.PawnAdvances c src dst ∨ p.PawnCaptures c src dst) := by
  constructor
  · intro goes
    cases goes with
    | push step free => exact ⟨color?_ne_of_empty free, .inl (.inl ⟨step, free⟩)⟩
    | doublePush home step free further empty =>
      exact ⟨color?_ne_of_empty empty, .inl (.inr ⟨home, _, step, free, further, empty⟩)⟩
    | capture hd step enemy =>
      refine ⟨?_, .inr ⟨_, hd, step, .inl enemy⟩⟩
      rw [enemy]
      cases c <;> decide
    | enPassant hd step target free =>
      exact ⟨color?_ne_of_empty free, .inr ⟨_, hd, step, .inr ⟨target, free⟩⟩⟩
    | jump hd | slide hd => cases hd
  · rintro ⟨-, (⟨step, free⟩ | ⟨home, mid, step, free, further, empty⟩)
      | ⟨d, hd, step, enemy | ⟨target, free⟩⟩⟩
    · exact .push step free
    · exact .doublePush home step free further empty
    · exact .capture hd step enemy
    · exact .enPassant hd step target free

/-- Knights and kings go one step, and kings may castle. -/
theorem goes_jump_iff (h : kind = .knight ∨ kind = .king) : p.Goes c src kind dst ↔
    p.color? dst ≠ some c ∧
      ((∃ d ∈ kind.jumps, src.step d = some dst) ∨ kind = .king ∧ p.KingCastles c src dst) := by
  rw [goes_iff_of_jumps h, mem_jumpTargets, mem_castlingTargets]
  constructor
  · rintro (⟨d, hd, step, other⟩ | ⟨king, w, home, can, rfl⟩)
    · exact ⟨other, .inl ⟨d, hd, step⟩⟩
    · -- the king arrives between its home and the rook, where nothing stands
      have isOpen := canCastle_iff.1 can
      refine ⟨color?_ne_of_empty isOpen.piece?_castled, .inr ⟨king, w, home, ?_, isOpen⟩⟩
      rw [home, Square.offset_kingHome]
  · rintro ⟨other, ⟨d, hd, step⟩ | ⟨king, w, home, target, isOpen⟩⟩
    · exact .inl ⟨d, hd, step, other⟩
    · refine .inr ⟨king, w, home, canCastle_iff.2 isOpen, ?_⟩
      have arrives := Square.offset_kingHome c w
      rw [home] at target
      exact Option.some.inj (target.symm.trans arrives)

/-- Bishops, rooks and queens go to squares that they see. -/
theorem goes_slide_iff (h : kind = .bishop ∨ kind = .rook ∨ kind = .queen) :
    p.Goes c src kind dst ↔ p.color? dst ≠ some c ∧ ∃ d ∈ kind.slides, p.Sees src d dst := by
  rw [goes_iff_of_slides h, mem_rayTargets kind.moves_of_mem_slides]
  constructor
  · rintro ⟨d, hd, sees, other⟩
    exact ⟨other, d, hd, sees⟩
  · rintro ⟨other, d, hd, sees⟩
    exact ⟨d, hd, sees, other⟩

/-- A piece goes where the rule for its kind lets it, except onto a piece of its own side. -/
theorem goes_iff_obeys :
    p.Goes c src kind dst ↔ p.color? dst ≠ some c ∧ p.Obeys c src dst kind := by
  cases kind with
  | pawn => exact goes_pawn_iff
  | knight =>
    refine (goes_jump_iff (.inl rfl)).trans (and_congr_right fun _ => ?_)
    exact or_iff_left nofun
  | king =>
    refine (goes_jump_iff (.inr rfl)).trans (and_congr_right fun _ => ?_)
    exact or_congr_right (and_iff_right rfl)
  | bishop => exact goes_slide_iff (.inl rfl)
  | rook => exact goes_slide_iff (.inr (.inl rfl))
  | queen => exact goes_slide_iff (.inr (.inr rfl))

/-- A move is listed exactly if a piece of the side to move obeys the rules with it. -/
theorem mem_iff_obeys : m ∈ p.pseudoLegalMoves ↔
    ∃ kind, p.piece? m.src = some ⟨p.toMove, kind⟩ ∧ p.color? m.dst ≠ some p.toMove ∧
      p.Obeys p.toMove m.src m.dst kind ∧ m.Promotes p.toMove kind := by
  simp only [mem_pseudoLegalMoves, goes_iff_obeys, and_assoc]

/-! ## Promotions -/

/-- Pawns that arrive on the last rank are promoted, and nothing else is. -/
theorem promotion_ne_none_iff (h : m ∈ p.pseudoLegalMoves) : m.promotion ≠ none ↔
    p.piece? m.src = some ⟨p.toMove, .pawn⟩ ∧ m.dst.rank = Rank.eighth p.toMove := by
  obtain ⟨kind, here, -, promotes⟩ := mem_pseudoLegalMoves.1 h
  rw [here, Option.some.injEq, Piece.mk.injEq, eq_self, true_and]
  rw [Move.Promotes] at promotes
  split at promotes
  · rename_i last
    obtain ⟨k, -, promotion⟩ := promotes
    exact iff_of_true (promotion ▸ Option.some_ne_none k) last
  · rename_i other
    exact iff_of_false (not_not.2 promotes) other

/-- Of a move that promotes there are four, one for each kind that a pawn may become. -/
theorem mem_promoted_iff (h : m ∈ p.pseudoLegalMoves) (promotes : m.promotion ≠ none)
    (k : PieceKind) :
    { m with promotion := some k } ∈ p.pseudoLegalMoves ↔ k ∈ PieceKind.promotions := by
  obtain ⟨here, last⟩ := (promotion_ne_none_iff h).1 promotes
  obtain ⟨kind, here', goes, -⟩ := mem_pseudoLegalMoves.1 h
  obtain rfl : kind = .pawn := congrArg Piece.kind (Option.some.inj (here'.symm.trans here))
  have listed : ({ m with promotion := some k } : Move).Promotes p.toMove .pawn ↔
      k ∈ PieceKind.promotions := by
    rw [Move.Promotes, if_pos ⟨rfl, last⟩]
    simp only [Option.some.injEq, exists_eq_right']
  rw [mem_pseudoLegalMoves, ← listed]
  constructor
  · rintro ⟨kind, here', -, promotes⟩
    obtain rfl : kind = .pawn := congrArg Piece.kind (Option.some.inj (here'.symm.trans here))
    exact promotes
  · exact fun promotes => ⟨.pawn, here, goes, promotes⟩

/-- The list of pseudo-legal moves holds every move that follows the rules, once, and no other. It
goes by the sources of the moves. A move promotes if it takes a pawn to the last rank, to each of
four kinds, and no other move promotes. -/
theorem pseudoLegalMoves_follow_rules (p : Position) :
    p.pseudoLegalMoves.Nodup ∧
      p.pseudoLegalMoves.Pairwise (fun m n => m.src.index ≤ n.src.index) ∧
      (∀ m, m ∈ p.pseudoLegalMoves ↔
        ∃ kind, p.piece? m.src = some ⟨p.toMove, kind⟩ ∧ p.color? m.dst ≠ some p.toMove ∧
          p.Obeys p.toMove m.src m.dst kind ∧ m.Promotes p.toMove kind) ∧
      (∀ m ∈ p.pseudoLegalMoves, m.promotion ≠ none ↔
        p.piece? m.src = some ⟨p.toMove, .pawn⟩ ∧ m.dst.rank = Rank.eighth p.toMove) ∧
      ∀ m ∈ p.pseudoLegalMoves, m.promotion ≠ none →
        ∀ k, { m with promotion := some k } ∈ p.pseudoLegalMoves ↔
          k ∈ [PieceKind.queen, .rook, .bishop, .knight] :=
  ⟨p.nodup_pseudoLegalMoves, p.pairwise_pseudoLegalMoves, fun _ => mem_iff_obeys,
    fun _ h => promotion_ne_none_iff h, fun _ h promotes => mem_promoted_iff h promotes⟩

/-- The pawn that captures in the corner may become a knight, and so it may become a bishop. -/
theorem pseudoLegalMoves_cornerCapture :
    knighting ∈ cornerCapture.pseudoLegalMoves ∧ knighting.promotion ≠ none ∧
      { knighting with promotion := some .bishop } ∈ cornerCapture.pseudoLegalMoves := by
  obtain ⟨-, -, rules, pawns, kinds⟩ := pseudoLegalMoves_follow_rules cornerCapture
  have captures : cornerCapture.PawnCaptures .white knighting.src knighting.dst :=
    ⟨⟨-1, 1⟩, List.mem_cons_self, rfl, .inl rfl⟩
  have promotes : knighting.Promotes .white .pawn := by
    rw [Move.Promotes, if_pos ⟨rfl, rfl⟩]
    exact ⟨.knight, by decide, rfl⟩
  have mem := (rules knighting).2 ⟨.pawn, rfl, by decide, .inr captures, promotes⟩
  have promoted : knighting.promotion ≠ none := (pawns _ mem).2 ⟨rfl, rfl⟩
  exact ⟨mem, promoted, (kinds _ mem promoted .bishop).2 (by decide)⟩

end Position

end ChessMachine
