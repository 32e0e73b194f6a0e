import ChessMachine.Proofs.Rules.PseudoLegal
import ChessMachine.Proofs.Rules.Sight

/-!
# Where the pieces go

The pseudo-legal moves, told as the rules of the game tell them: for each kind of piece, where it
goes, and what a pawn becomes on the last rank.

## Main definitions

* `PieceKind.jumps`, `PieceKind.slides` — the directions of single steps and of lines.
* `Position.Goes` — where a piece goes.
* `Move.Promotes` — whether a move promotes as it has to.

## Main results

* `Position.mem_pseudoLegalMoves` — the moves are those of the rules.
-/
namespace ChessMachine

namespace PieceKind

def jumps : PieceKind → List Direction
  | knight => Direction.knight
  | king => Direction.royal
  | pawn | bishop | rook | queen => []

def slides : PieceKind → List Direction
  | bishop => Direction.diagonal
  | rook => Direction.straight
  | queen => Direction.royal
  | pawn | knight | king => []

theorem mem_royal_of_mem_slides (kind : PieceKind) : ∀ d ∈ kind.slides, d ∈ Direction.royal := by
  cases kind <;> decide

theorem moves_of_mem_slides (kind : PieceKind) : ∀ d ∈ kind.slides, d.Moves :=
  fun d hd => Direction.moves_of_mem_royal d (kind.mem_royal_of_mem_slides d hd)

end PieceKind

/-- A pawn that arrives on the last rank is promoted, and nothing else is. -/
def Move.Promotes (m : Move) (c : Color) (kind : PieceKind) : Prop :=
  if kind = .pawn ∧ m.dst.rank = Rank.eighth c then
    ∃ k ∈ PieceKind.promotions, m.promotion = some k
  else m.promotion = none

/-- Every move has a form that promotes as it has to. -/
theorem Move.exists_promotes (c : Color) (kind : PieceKind) (src dst : Square) :
    ∃ promotion, (⟨src, dst, promotion⟩ : Move).Promotes c kind := by
  by_cases last : kind = .pawn ∧ dst.rank = Rank.eighth c
  · exact ⟨some .queen, by rw [Promotes, if_pos last]; exact ⟨_, List.mem_cons_self, rfl⟩⟩
  · exact ⟨none, by rw [Promotes, if_neg last]⟩

namespace Position

/-- A piece of colour `c` goes from `src`, by its kind, to a square. -/
inductive Goes (p : Position) (c : Color) (src : Square) : PieceKind → Square → Prop where
  | push {dst} (step : src.ahead c 1 = some dst) (free : p.piece? dst = none) :
    p.Goes c src .pawn dst
  /-- From its second rank a pawn may go two squares. -/
  | doublePush {mid dst} (home : src.rank = Rank.second c) (step : src.ahead c 1 = some mid)
      (free : p.piece? mid = none) (further : src.ahead c 2 = some dst)
      (empty : p.piece? dst = none) : p.Goes c src .pawn dst
  | capture {d dst} (direction : d ∈ Direction.pawn c) (step : src.step d = some dst)
      (enemy : p.color? dst = some c.opponent) : p.Goes c src .pawn dst
  | enPassant {d dst} (direction : d ∈ Direction.pawn c) (step : src.step d = some dst)
      (target : p.enPassant = some dst) (free : p.piece? dst = none) : p.Goes c src .pawn dst
  | jump {kind d dst} (direction : d ∈ kind.jumps) (step : src.step d = some dst)
      (other : p.color? dst ≠ some c) : p.Goes c src kind dst
  | slide {kind d dst} (direction : d ∈ kind.slides) (sees : p.Sees src d dst)
      (other : p.color? dst ≠ some c) : p.Goes c src kind dst
  | castle {w} (home : src = Square.kingHome c) (can : p.canCastle c w = true) :
    p.Goes c src .king (Square.castled c w)

variable {p : Position} {c : Color} {src dst : Square} {m : Move} {kind : PieceKind}
  {directions : List Direction}

theorem isOccupied_eq_false_iff : p.isOccupied dst = false ↔ p.piece? dst = none := by
  simp [isOccupied]

/-! ## Pawns -/

/-- The squares of a push, given what lies one and two squares ahead. -/
theorem mem_pushTargets_of (p : Position) (home : Prop) [Decidable home]
    (first second : Option Square) :
    (dst ∈ match first.filter fun s => !p.isOccupied s with
      | none => []
      | some single =>
        if home then single :: (second.filter fun s => !p.isOccupied s).toList else [single]) ↔
      (first = some dst ∧ p.piece? dst = none) ∨
        home ∧ (∃ mid, first = some mid ∧ p.piece? mid = none) ∧
          second = some dst ∧ p.piece? dst = none := by
  have free (square : Option Square) (t : Square) :
      (square.filter fun s => !p.isOccupied s) = some t ↔ square = some t ∧ p.piece? t = none := by
    rw [Option.filter_eq_some_iff, Bool.not_eq_true', isOccupied_eq_false_iff]
  cases kept : first.filter fun s => !p.isOccupied s with
  | none =>
    have blocked (t : Square) (ahead : first = some t) : p.piece? t ≠ none := by
      intro empty
      cases kept.symm.trans ((free first t).2 ⟨ahead, empty⟩)
    constructor
    · intro mem
      cases mem
    · rintro (⟨ahead, empty⟩ | ⟨-, ⟨mid, ahead, empty⟩, -⟩)
      · exact absurd empty (blocked dst ahead)
      · exact absurd empty (blocked mid ahead)
  | some single =>
    obtain ⟨ahead, empty⟩ := (free first single).1 kept
    have same : first = some dst ↔ dst = single := by rw [ahead, Option.some.injEq, eq_comm]
    dsimp only
    by_cases isHome : home
    · rw [if_pos isHome, List.mem_cons, Option.mem_toList, free second, same]
      constructor
      · rintro (rfl | further)
        · exact .inl ⟨rfl, empty⟩
        · exact .inr ⟨isHome, ⟨single, ahead, empty⟩, further⟩
      · rintro (⟨here, -⟩ | ⟨-, -, further⟩)
        · exact .inl here
        · exact .inr further
    · rw [if_neg isHome, List.mem_singleton, same]
      constructor
      · rintro rfl
        exact .inl ⟨rfl, empty⟩
      · rintro (⟨here, -⟩ | ⟨second, -⟩)
        · exact here
        · exact absurd second isHome

/-- A pawn is pushed one square, or two from its second rank, over empty squares. -/
theorem mem_pushTargets : dst ∈ p.pushTargets c src ↔
    (src.ahead c 1 = some dst ∧ p.piece? dst = none) ∨
      src.rank = Rank.second c ∧ (∃ mid, src.ahead c 1 = some mid ∧ p.piece? mid = none) ∧
        src.ahead c 2 = some dst ∧ p.piece? dst = none :=
  mem_pushTargets_of p _ (src.ahead c 1) (src.ahead c 2)

/-- A pawn captures an enemy diagonally ahead, or takes in passing. -/
theorem mem_captureTargets : dst ∈ p.captureTargets c src ↔
    ∃ d ∈ Direction.pawn c, src.step d = some dst ∧
      (p.color? dst = some c.opponent ∨ p.enPassant = some dst ∧ p.piece? dst = none) := by
  simp only [captureTargets, List.mem_filter, List.mem_filterMap, isPawnCapture, Bool.or_eq_true,
    Bool.and_eq_true, decide_eq_true_eq, Bool.not_eq_true', isOccupied_eq_false_iff]
  grind

theorem mem_pawnArrivals : m ∈ pawnArrivals c src dst ↔
    m.src = src ∧ m.dst = dst ∧ m.Promotes c .pawn := by
  obtain ⟨from', to', promotion⟩ := m
  by_cases last : dst.rank = Rank.eighth c
  · simp only [pawnArrivals, last, if_true, List.mem_map, Move.mk.injEq, Move.Promotes, true_and]
    grind
  · simp only [pawnArrivals, last, if_false, List.mem_singleton, Move.mk.injEq, Move.Promotes]
    grind

theorem mem_pawnMoves : m ∈ p.pawnMoves c src ↔
    m.src = src ∧ p.Goes c src .pawn m.dst ∧ m.Promotes c .pawn := by
  simp only [pawnMoves, List.mem_flatMap, List.mem_append, mem_pawnArrivals, mem_pushTargets,
    mem_captureTargets]
  constructor
  · rintro ⟨dst, target, rfl, rfl, promotes⟩
    refine ⟨rfl, ?_, promotes⟩
    rcases target with (⟨step, free⟩ | ⟨home, ⟨mid, step, free⟩, further, empty⟩)
      | ⟨d, hd, step, enemy | ⟨target, free⟩⟩
    · exact .push step free
    · exact .doublePush home step free further empty
    · exact .capture hd step enemy
    · exact .enPassant hd step target free
  · rintro ⟨rfl, goes, promotes⟩
    refine ⟨m.dst, ?_, rfl, rfl, promotes⟩
    cases goes with
    | push step free => exact .inl (.inl ⟨step, free⟩)
    | doublePush home step free further empty =>
      exact .inl (.inr ⟨home, ⟨_, step, free⟩, further, empty⟩)
    | capture hd step enemy => exact .inr ⟨_, hd, step, .inl enemy⟩
    | enPassant hd step target free => exact .inr ⟨_, hd, step, .inr ⟨target, free⟩⟩
    | jump hd | slide hd => cases hd

/-! ## Other pieces -/

theorem mem_jumpTargets : dst ∈ p.jumpTargets c src directions ↔
    ∃ d ∈ directions, src.step d = some dst ∧ p.color? dst ≠ some c := by
  simp only [jumpTargets, List.mem_filter, List.mem_filterMap, decide_eq_true_eq]
  grind

/-- Along lines, a piece goes to what it sees. -/
theorem mem_rayTargets (moves : ∀ d ∈ directions, d.Moves) :
    dst ∈ p.rayTargets c src directions ↔
      ∃ d ∈ directions, p.Sees src d dst ∧ p.color? dst ≠ some c := by
  simp only [rayTargets, List.mem_flatMap]
  grind [mem_reach_ray]

theorem mem_castlingTargets : dst ∈ p.castlingTargets c src ↔
    ∃ w, src = Square.kingHome c ∧ p.canCastle c w = true ∧ dst = Square.castled c w := by
  constructor
  · intro h
    obtain ⟨w, can, home, target⟩ := exists_of_mem_castlingTargets h
    exact ⟨w, home, can, target⟩
  · rintro ⟨w, rfl, can, rfl⟩
    rw [castlingTargets, if_pos (show Square.kingHome c = ⟨File.kingHome, Rank.first c⟩ from rfl)]
    have listed : w ∈ Wing.all := by cases w <;> decide
    exact List.mem_map.2 ⟨w, List.mem_filter.2 ⟨listed, can⟩, rfl⟩

theorem goes_iff_of_jumps (h : kind = .knight ∨ kind = .king) :
    p.Goes c src kind dst ↔ dst ∈ p.jumpTargets c src kind.jumps ∨
      kind = .king ∧ dst ∈ p.castlingTargets c src := by
  rw [mem_jumpTargets, mem_castlingTargets]
  constructor
  · intro goes
    cases goes with
    | jump hd step other => exact .inl ⟨_, hd, step, other⟩
    | castle home can => exact .inr ⟨rfl, _, home, can, rfl⟩
    | slide hd => rcases h with rfl | rfl <;> cases hd
    | _ => simp at h
  · rintro (⟨d, hd, step, other⟩ | ⟨rfl, w, home, can, rfl⟩)
    · exact .jump hd step other
    · exact .castle home can

theorem goes_iff_of_slides (h : kind = .bishop ∨ kind = .rook ∨ kind = .queen) :
    p.Goes c src kind dst ↔ dst ∈ p.rayTargets c src kind.slides := by
  rw [mem_rayTargets kind.moves_of_mem_slides]
  constructor
  · intro goes
    cases goes with
    | slide hd sees other => exact ⟨_, hd, sees, other⟩
    | jump hd => rcases h with rfl | rfl | rfl <;> cases hd
    | _ => simp at h
  · rintro ⟨d, hd, sees, other⟩
    exact .slide hd sees other

/-- What a piece moves to without a promotion. -/
theorem mem_map_targets {targets : List Square} (piece : kind ≠ .pawn)
    (h : ∀ dst, p.Goes c src kind dst ↔ dst ∈ targets) :
    m ∈ targets.map (fun dst => (⟨src, dst, none⟩ : Move)) ↔
      m.src = src ∧ p.Goes c src kind m.dst ∧ m.Promotes c kind := by
  obtain ⟨from', to', promotion⟩ := m
  simp only [List.mem_map, Move.mk.injEq, Move.Promotes, piece, false_and, if_false, h]
  grind

/-- The moves of a piece lead where it goes, with the promotions that it may have there. -/
theorem mem_pieceMoves : m ∈ p.pieceMoves src ⟨c, kind⟩ ↔
    m.src = src ∧ p.Goes c src kind m.dst ∧ m.Promotes c kind := by
  cases kind with
  | pawn => exact mem_pawnMoves
  | knight =>
    refine mem_map_targets nofun fun dst => ?_
    rw [goes_iff_of_jumps (.inl rfl)]
    exact or_iff_left nofun
  | king =>
    refine mem_map_targets nofun fun dst => ?_
    rw [List.mem_append, goes_iff_of_jumps (.inr rfl), and_iff_right rfl]
    rfl
  | bishop => exact mem_map_targets nofun fun dst => goes_iff_of_slides (.inl rfl)
  | rook => exact mem_map_targets nofun fun dst => goes_iff_of_slides (.inr (.inl rfl))
  | queen => exact mem_map_targets nofun fun dst => goes_iff_of_slides (.inr (.inr rfl))

/-- The pseudo-legal moves are those that the pieces of the side to move make by the rules. -/
theorem mem_pseudoLegalMoves : m ∈ p.pseudoLegalMoves ↔
    ∃ kind, p.piece? m.src = some ⟨p.toMove, kind⟩ ∧ p.Goes p.toMove m.src kind m.dst ∧
      m.Promotes p.toMove kind := by
  constructor
  · intro h
    obtain ⟨kind, here, hm⟩ := exists_of_mem_pseudoLegalMoves h
    exact ⟨kind, here, (mem_pieceMoves.1 hm).2⟩
  · rintro ⟨kind, here, goes, promotes⟩
    refine List.mem_flatMap.2 ⟨(m.src, ⟨p.toMove, kind⟩), mem_pieces.2 here, ?_⟩
    simp only [if_true]
    exact mem_pieceMoves.2 ⟨rfl, goes, promotes⟩

end Position

end ChessMachine
