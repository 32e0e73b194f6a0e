import ChessMachine.Proofs.Mirror.Play
import ChessMachine.Proofs.Rules.Overflow

/-!
# Both sides play by the same rules

In the mirror image of a position there are as many sequences of legal moves. The counters may
overflow in one of them before they do in the other, as the numbers of moves are counted in turns
that end with Black's.

## Main results

* `Position.Mirrors.yields_isLegal`, `Position.Mirrors.yields_legalMoves` — legal moves are the
  images of legal moves.
* `Position.Mirrors.yields_perft`, `Position.perft_mirror` — and as many.
-/
namespace ChessMachine

namespace Position

variable {p q p' : Position} {m : Move} {moves : List Move} {bulk : Bool} {depth n : Nat}

theorem transit?_mirror (m : Move) : transit? m.mirror = (transit? m).map Square.mirror := by
  have sideways (files : Int) := m.src.offset_mirror files 0
  rw [Int.neg_zero] at sideways
  exact sideways _

namespace Mirrors

variable (mirrors : p.Mirrors q)
include mirrors

/-- The image of a move leads to the image of the position after it. -/
theorem yields_play (played : p.play m = .ok p') :
    Yields (liftM (q.play m.mirror) : Except Failure Position) p'.Mirrors := by
  refine yields_liftM_overflow fun q' image => ?_
  cases here : p.piece? m.src with
  | none =>
    have there : q.piece? m.mirror.src = none := by
      rw [Move.src_mirror, mirrors.piece?, here, Option.map_none]
    rw [play, here] at played
    rw [play, there] at image
    obtain rfl := Except.ok.inj played
    obtain rfl := Except.ok.inj image
    exact mirrors
  | some piece =>
    have there : q.piece? m.mirror.src = some piece.mirror := by
      rw [Move.src_mirror, mirrors.piece?, here, Option.map_some]
    exact mirrors.of_played (played_of_play here played) (played_of_play there image)

/-! ## Legal moves -/

theorem isCastling (m : Move) : q.isCastling m.mirror = p.isCastling m := by
  rw [Position.isCastling, Move.src_mirror, mirrors.piece?, Option.any_map, Position.isCastling]
  rfl

theorem halfway (m : Move) (transit : Square) :
    (p.halfway m transit).Mirrors (q.halfway m.mirror transit.mirror) := by
  refine ⟨?_, mirrors.toMove, mirrors.rights, mirrors.enPassant⟩
  rw [Position.halfway, Position.halfway, mirrors.board, Board.mirror_carry, Move.src_mirror]

/-- The way of a king that castles is as safe in the image. -/
theorem isPathSafe (few : p.FewKings) (m : Move) : q.isPathSafe m.mirror = p.isPathSafe m := by
  rw [Position.isPathSafe, mirrors.toMove, mirrors.inCheck few, transit?_mirror,
    Position.isPathSafe]
  cases transit? m with
  | none => rfl
  | some transit =>
    have half := (mirrors.halfway m transit).inCheck (few.halfway transit) p.toMove
    simp only [Option.map_some, half]

/-- A move is legal as its image is. -/
theorem yields_isLegal (few : p.FewKings) (mem : m ∈ p.pseudoLegalMoves) {legal : Bool}
    (h : p.isLegal m = .ok legal) : Yields (q.isLegal m.mirror) (· = legal) := by
  have last (h : (do return !(← (← p.play m).inCheck p.toMove) : Except Failure Bool) = .ok legal) :
      Yields (do return !(← (← q.play m.mirror).inCheck q.toMove)) (· = legal) := by
    obtain ⟨p', played, h⟩ := bind_eq_ok_iff.1 h
    rw [Failure.liftM_overflow_eq_ok_iff] at played
    refine (mirrors.yields_play played).bind fun q' image => ?_
    have same : q'.inCheck q.toMove = p'.inCheck p.toMove := by
      rw [mirrors.toMove]
      exact image.inCheck (few.of_play mem played) p.toMove
    rw [same, h]
    exact .ok rfl
  rw [isLegal] at h ⊢
  rw [mirrors.isCastling, mirrors.isPathSafe few]
  split
  · rename_i castles
    rw [if_pos castles] at h
    obtain ⟨way, safe, h⟩ := bind_eq_ok_iff.1 h
    rw [safe]
    cases way with
    | false => exact .ok (Except.ok.inj h)
    | true => exact last h
  · rename_i stays
    rw [if_neg stays] at h
    exact last h

/-- The legal moves of the image are the images of the legal moves, in some order. -/
theorem yields_legalMoves (few : p.FewKings) (h : p.legalMoves = .ok moves) :
    Yields q.legalMoves fun images => images.Perm (moves.map Move.mirror) := by
  have bounded := length_le_of_legalMoves h
  obtain ⟨legal, all, rfl⟩ := exists_of_legalMoves h
  have others := mirrors.perm_pseudoLegalMoves
  have images : (q.pseudoLegalMoves.filter fun m => legal m.mirror).Perm
      ((p.pseudoLegalMoves.filter legal).map Move.mirror) := by
    refine (others.filter _).trans (.of_eq ?_)
    rw [List.filter_map]
    simp only [Function.comp_def, Move.mirror_mirror]
  refine (Position.yields_legalMoves (fun m => legal m.mirror) ?_ ?_).imp
    fun found same => same ▸ images
  · intro image there
    obtain ⟨m, mem, rfl⟩ := List.mem_map.1 (others.mem_iff.1 there)
    rw [Move.mirror_mirror]
    exact mirrors.yields_isLegal few mem (all m mem)
  · rwa [images.length_eq, List.length_map]

/-! ## Counts -/

/-- The image has as many sequences of legal moves. -/
theorem yields_perft (few : p.FewKings) (h : p.perft bulk depth = .ok n) :
    Yields (q.perft bulk depth) (· = n) := by
  induction depth generalizing p q n with
  | zero => exact .ok (Except.ok.inj h)
  | succ depth ih =>
    rw [perft] at h ⊢
    obtain ⟨moves, legal, h⟩ := bind_eq_ok_iff.1 h
    refine (mirrors.yields_legalMoves few legal).bind fun images same => ?_
    split
    · rename_i last
      rw [if_pos last] at h
      obtain rfl := Except.ok.inj h
      exact .ok (by rw [same.length_eq, List.length_map])
    · rename_i further
      rw [if_neg further] at h
      obtain ⟨value, all, rfl⟩ := exists_of_sumOver h
      refine (yields_sumOver (fun m => value m.mirror) fun image there => ?_).imp
        fun total sum => ?_
      · obtain ⟨m, mem, rfl⟩ := List.mem_map.1 (same.mem_iff.1 there)
        obtain ⟨p', played, counted⟩ := bind_eq_ok_iff.1 (all m mem)
        rw [Failure.liftM_overflow_eq_ok_iff] at played
        rw [Move.mirror_mirror]
        exact (mirrors.yields_play played).bind fun q' image =>
          ih image (few.of_play (of_mem_legalMoves legal mem).1 played) counted
      · rw [sum, (same.map _).foldr_eq, List.map_map]
        simp only [Function.comp_def, Move.mirror_mirror]

end Mirrors

/-- If no colour has two kings, and as long as no counter overflows, there are as many sequences
of legal moves in the mirror image as in a position. -/
theorem perft_mirror (bulk : Bool) (p : Position) (depth : Nat) (few : p.FewKings)
    (counts : ¬ Overflows (p.perft bulk depth))
    (countsImage : ¬ Overflows (p.mirror.perft bulk depth)) (n : Nat) :
    p.perft bulk depth = .ok n ↔ p.mirror.perft bulk depth = .ok n := by
  have mirrors := p.mirrors_mirror
  constructor
  · intro h
    exact (mirrors.yields_perft few h).eq_ok countsImage
  · intro h
    exact (mirrors.symm.yields_perft (mirrors.fewKings few) h).eq_ok counts

/-- Black castles in the mirror image as White does in the endgame. -/
theorem perft_mirror_rookEndgame : rookEndgame.mirror.perft true 1 = .ok 16 := by
  have king : ∀ c, ∀ s ∈ Square.all, rookEndgame.piece? s = some ⟨c, .king⟩ ↔
      s = Square.kingHome c := by
    intro c
    cases c <;> decide +kernel
  have few : rookEndgame.FewKings := fun c s t hs ht =>
    ((king c s s.mem_all).1 hs).trans ((king c t t.mem_all).1 ht).symm
  have count : rookEndgame.allowedMoves.length = 16 := by decide +kernel
  have moves : rookEndgame.legalMoves = .ok rookEndgame.allowedMoves :=
    legalMoves_of_le ⟨_, fun s => king _ s s.mem_all⟩ (by decide) (by decide) (by omega)
  have sixteen : rookEndgame.perft true 1 = .ok 16 := by
    rw [perft, moves, ← count]
    rfl
  exact (perft_mirror true rookEndgame 1 few (not_overflows_perft _ (by decide))
    (not_overflows_perft _ (by decide)) 16).1 sixteen

end Position

end ChessMachine
