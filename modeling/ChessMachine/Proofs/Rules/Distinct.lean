import ChessMachine.Proofs.Board.Squares
import ChessMachine.Proofs.Rules.Movement
import Mathlib.Data.List.Nodup

/-!
# The list of moves

Pseudo-legal moves are listed by their source, and none is listed twice. Steps and lines in
different directions end on different squares, a pawn that captures leaves its file, and a king
that castles goes further than a step.

## Main results

* `Square.eq_of_along_eq_along` — lines in different directions do not meet again.
* `Position.nodup_pieceMoves` — a piece makes each of its moves once.
* `Position.nodup_pseudoLegalMoves`, `Position.pairwise_pseudoLegalMoves` — the whole list.
-/
namespace ChessMachine

theorem PieceKind.nodup_jumps (kind : PieceKind) : kind.jumps.Nodup := by cases kind <;> decide

theorem PieceKind.nodup_slides (kind : PieceKind) : kind.slides.Nodup := by cases kind <;> decide

namespace Square

variable {s t : Square} {d e : Direction} {m n : Nat}

/-! ## Lines -/

/-- No two directions lead to the same square in one step. -/
theorem eq_of_step_eq_step (hd : s.step d = some t) (he : s.step e = some t) : d = e := by
  obtain ⟨files, ranks⟩ := step_eq_some_iff.1 hd
  obtain ⟨files', ranks'⟩ := step_eq_some_iff.1 he
  obtain ⟨df, dr⟩ := d
  obtain ⟨ef, er⟩ := e
  simp only at files ranks files' ranks'
  obtain rfl : df = ef := by omega
  obtain rfl : dr = er := by omega
  rfl

/-- A number of steps keeps the sign of the direction. -/
theorem sign_succ_mul (x : Int) (n : Nat) : (((n + 1 : Nat) : Int) * x).sign = x.sign := by
  rw [Int.sign_mul, Int.sign_eq_one_of_pos (by omega), Int.one_mul]

/-- Lines of a queen in different directions do not meet again. -/
theorem eq_of_along_eq_along (hd : d ∈ Direction.royal) (he : e ∈ Direction.royal)
    (first : s.along d (m + 1) = some t) (second : s.along e (n + 1) = some t) : d = e := by
  -- a direction of a queen is made of signs, and any number of steps keeps them
  have unit : ∀ d ∈ Direction.royal, d.files.sign = d.files ∧ d.ranks.sign = d.ranks := by decide
  obtain ⟨files, ranks⟩ := along_eq_some first
  obtain ⟨files', ranks'⟩ := along_eq_some second
  have sameFiles : d.files = e.files := by
    rw [← (unit d hd).1, ← (unit e he).1, ← sign_succ_mul d.files m, ← sign_succ_mul e.files n]
    exact congrArg Int.sign (by omega)
  have sameRanks : d.ranks = e.ranks := by
    rw [← (unit d hd).2, ← (unit e he).2, ← sign_succ_mul d.ranks m, ← sign_succ_mul e.ranks n]
    exact congrArg Int.sign (by omega)
  obtain ⟨df, dr⟩ := d
  exact congrArg₂ Direction.mk sameFiles sameRanks

/-- A way comes to no square twice. -/
theorem along_injective (moves : d.Moves) (first : s.along d m = some t)
    (second : s.along d n = some t) : m = n := by
  obtain ⟨files, ranks⟩ := along_eq_some first
  obtain ⟨files', ranks'⟩ := along_eq_some second
  rcases moves with nonzero | nonzero
  · have same : (m : Int) * d.files = n * d.files := by omega
    exact Int.ofNat_inj.1 (Int.eq_of_mul_eq_mul_right nonzero same)
  · have same : (m : Int) * d.ranks = n * d.ranks := by omega
    exact Int.ofNat_inj.1 (Int.eq_of_mul_eq_mul_right nonzero same)

theorem exists_along_of_mem_ray (moves : d.Moves) (h : t ∈ s.ray d) :
    ∃ n, s.along d (n + 1) = some t := by
  obtain ⟨i, there⟩ := List.mem_iff_getElem?.1 h
  exact ⟨i, (getElem?_ray moves i).symm.trans there⟩

theorem nodup_ray (moves : d.Moves) : (s.ray d).Nodup := by
  refine List.nodup_iff_getElem?_ne_getElem?.2 fun i j lt bound same => ?_
  rw [List.getElem?_eq_getElem bound] at same
  have first := (getElem?_ray moves i).symm.trans same
  have second := (getElem?_ray moves j).symm.trans (List.getElem?_eq_getElem bound)
  have := along_injective moves first second
  omega

end Square

namespace Position

variable {p : Position} {c : Color} {src : Square} {directions : List Direction}
  {squares : List Square}

/-! ## Pieces other than pawns -/

/-- Single steps in different directions lead to different squares. -/
theorem nodup_jumpTargets (distinct : directions.Nodup) : (p.jumpTargets c src directions).Nodup :=
  (distinct.filterMap fun _ _ _ => Square.eq_of_step_eq_step).filter _

theorem reach_sublist : (p.reach c squares).Sublist squares := by
  induction squares with
  | nil => exact .slnil
  | cons s rest ih =>
    rw [reach]
    cases p.color? s with
    | none => exact ih.cons_cons s
    | some d =>
      dsimp only
      split
      · exact List.nil_sublist _
      · exact List.singleton_sublist.2 List.mem_cons_self

/-- Lines in different directions never meet again. -/
theorem nodup_rayTargets (royal : ∀ d ∈ directions, d ∈ Direction.royal)
    (distinct : directions.Nodup) : (p.rayTargets c src directions).Nodup := by
  have moves (d : Direction) (hd : d ∈ directions) : d.Moves :=
    Direction.moves_of_mem_royal d (royal d hd)
  refine List.nodup_flatMap.2 ⟨fun d hd => reach_sublist.nodup (Square.nodup_ray (moves d hd)), ?_⟩
  refine List.Pairwise.imp_of_mem ?_ distinct
  intro d e hd he different t first second
  obtain ⟨m, first⟩ := Square.exists_along_of_mem_ray (moves d hd) (reach_sublist.subset first)
  obtain ⟨n, second⟩ := Square.exists_along_of_mem_ray (moves e he) (reach_sublist.subset second)
  exact different (Square.eq_of_along_eq_along (royal d hd) (royal e he) first second)

theorem nodup_castlingTargets : (p.castlingTargets c src).Nodup := by
  rw [castlingTargets]
  split
  · have distinct : (Wing.all.filter (p.canCastle c)).Nodup := List.Nodup.filter _ (by decide)
    refine distinct.map fun v w same => ?_
    have file : v.kingTarget = w.kingTarget := congrArg Square.file same
    cases v <;> cases w <;> first | rfl | cases file
  · exact List.nodup_nil

/-- A king that castles goes further than a step. -/
theorem disjoint_castlingTargets :
    (p.jumpTargets c src Direction.royal).Disjoint (p.castlingTargets c src) := by
  intro dst jump castles
  have near := fileDistance_le_of_mem_jumpTargets jump
  obtain ⟨w, -, rfl, rfl⟩ := exists_of_mem_castlingTargets castles
  have far : (Move.castle c w).fileDistance = 2 := by cases c <;> cases w <;> rfl
  rw [Move.castle] at far
  omega

/-! ## Pawns -/

theorem file_of_mem_pushTargets {dst : Square} (h : dst ∈ p.pushTargets c src) :
    dst.file = src.file := by
  rcases mem_pushTargets.1 h with ⟨step, -⟩ | ⟨-, -, step, -⟩
  · exact (Square.ahead_eq_some_iff.1 step).1
  · exact (Square.ahead_eq_some_iff.1 step).1

/-- The squares of a push are different if those one and two squares ahead are. -/
theorem nodup_pushTargets_of (p : Position) (home : Prop) [Decidable home]
    (first second : Option Square) (apart : ∀ s, first = some s → second ≠ some s) :
    (match first.filter fun s => !p.isOccupied s with
      | none => []
      | some single =>
        if home then single :: (second.filter fun s => !p.isOccupied s).toList
        else [single]).Nodup := by
  cases kept : first.filter fun s => !p.isOccupied s with
  | none => exact List.nodup_nil
  | some single =>
    dsimp only
    split
    · have once (o : Option Square) : o.toList.Nodup := by cases o <;> simp
      refine List.nodup_cons.2 ⟨fun again => ?_, once _⟩
      exact apart single (Option.filter_eq_some_iff.1 kept).1
        (Option.filter_eq_some_iff.1 (Option.mem_toList.1 again)).1
    · exact List.nodup_singleton _

theorem nodup_pushTargets : (p.pushTargets c src).Nodup := by
  refine nodup_pushTargets_of p _ (src.ahead c 1) (src.ahead c 2) fun s first second => ?_
  have one := (Square.ahead_eq_some_iff.1 first).2
  have two := (Square.ahead_eq_some_iff.1 second).2
  cases c <;> simp only [Color.sign] at one two <;> omega

theorem nodup_captureTargets : (p.captureTargets c src).Nodup := by
  have distinct : (Direction.pawn c).Nodup := by cases c <;> decide
  exact (distinct.filterMap fun _ _ _ => Square.eq_of_step_eq_step).filter _

/-- A pawn leaves its file when it captures, and only then. -/
theorem disjoint_captureTargets : (p.pushTargets c src).Disjoint (p.captureTargets c src) := by
  intro dst push capture
  obtain ⟨d, hd, step, -⟩ := mem_captureTargets.1 capture
  have file := file_of_mem_pushTargets push
  have slanted : ∀ d ∈ Direction.pawn c, d.files ≠ 0 := by cases c <;> decide
  have := (Square.step_eq_some_iff.1 step).1
  have := slanted d hd
  rw [file] at *
  omega

theorem nodup_pawnArrivals {dst : Square} : (pawnArrivals c src dst).Nodup := by
  rw [pawnArrivals]
  split
  · have distinct : PieceKind.promotions.Nodup := by decide
    refine distinct.map fun k l same => ?_
    exact Option.some.inj (congrArg Move.promotion same)
  · exact List.nodup_singleton _

/-- A pawn has each of its moves once, also those that differ in the promotion only. -/
theorem nodup_pawnMoves : (p.pawnMoves c src).Nodup := by
  have targets : (p.pushTargets c src ++ p.captureTargets c src).Nodup :=
    nodup_pushTargets.append nodup_captureTargets disjoint_captureTargets
  refine List.nodup_flatMap.2 ⟨fun _ _ => nodup_pawnArrivals, targets.imp ?_⟩
  intro s t different m first second
  exact different ((mem_pawnArrivals.1 first).2.1.symm.trans (mem_pawnArrivals.1 second).2.1)

/-! ## The whole list -/

theorem nodup_map_targets (h : squares.Nodup) :
    (squares.map fun dst => (⟨src, dst, none⟩ : Move)).Nodup :=
  h.map fun _ _ same => congrArg Move.dst same

/-- A piece makes each of its moves once. -/
theorem nodup_pieceMoves (piece : Piece) : (p.pieceMoves src piece).Nodup := by
  obtain ⟨color, kind⟩ := piece
  have jumps (kind : PieceKind) : (p.jumpTargets color src kind.jumps).Nodup :=
    nodup_jumpTargets kind.nodup_jumps
  have slides (kind : PieceKind) : (p.rayTargets color src kind.slides).Nodup :=
    nodup_rayTargets kind.mem_royal_of_mem_slides kind.nodup_slides
  cases kind with
  | pawn => exact nodup_pawnMoves
  | knight => exact nodup_map_targets (jumps .knight)
  | bishop => exact nodup_map_targets (slides .bishop)
  | rook => exact nodup_map_targets (slides .rook)
  | queen => exact nodup_map_targets (slides .queen)
  | king =>
    have all := (jumps .king).append nodup_castlingTargets disjoint_castlingTargets
    exact nodup_map_targets all

/-- The pieces are listed in the order of their squares. -/
theorem pairwise_pieces (p : Position) : p.pieces.Pairwise fun x y => x.1.index < y.1.index := by
  refine List.Pairwise.filterMap _ (fun s t lt x hx y hy => ?_) Square.pairwise_all
  obtain ⟨_, -, rfl⟩ := Option.map_eq_some_iff.1 hx
  obtain ⟨_, -, rfl⟩ := Option.map_eq_some_iff.1 hy
  exact lt

theorem src_of_mem_turn {x : Square × Piece} {m : Move}
    (h : m ∈ if x.2.color = p.toMove then p.pieceMoves x.1 x.2 else []) : m.src = x.1 := by
  split at h
  · exact src_of_mem_pieceMoves h
  · cases h

/-- A relation holds along the list if it holds along the moves of each piece, and between moves
of different pieces, the first of which has the lower source. -/
theorem pairwise_moves {R : Move → Move → Prop}
    (same : ∀ src piece, (p.pieceMoves src piece).Pairwise R)
    (different : ∀ m n : Move, m.src.index < n.src.index → R m n) :
    p.pseudoLegalMoves.Pairwise R := by
  refine List.pairwise_flatMap.2 ⟨fun x _ => ?_, p.pairwise_pieces.imp ?_⟩
  · dsimp only
    split
    · exact same _ _
    · exact .nil
  · intro x y lt m hm n hn
    refine different m n ?_
    rwa [src_of_mem_turn hm, src_of_mem_turn hn]

/-- No move is listed twice. -/
theorem nodup_pseudoLegalMoves (p : Position) : p.pseudoLegalMoves.Nodup := by
  refine pairwise_moves (fun src piece => nodup_pieceMoves piece) fun m n lt same => ?_
  exact Nat.ne_of_lt lt (congrArg (·.src.index) same)

/-- Moves are listed by their source. -/
theorem pairwise_pseudoLegalMoves (p : Position) :
    p.pseudoLegalMoves.Pairwise fun m n => m.src.index ≤ n.src.index := by
  refine pairwise_moves (fun src piece => ?_) fun m n => Nat.le_of_lt
  refine List.pairwise_of_forall_mem_list fun m hm n hn => Nat.le_of_eq ?_
  rw [src_of_mem_pieceMoves hm, src_of_mem_pieceMoves hn]

end Position

end ChessMachine
