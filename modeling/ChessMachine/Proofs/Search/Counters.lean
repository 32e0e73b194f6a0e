import ChessMachine.Proofs.Rules.Overflow
import ChessMachine.Search.AlphaBeta

/-!
# Counters do not influence play

The counters of a position are kept, but nothing asks for them. Where two positions differ in their
counters only, whatever is computed from them is the same, as long as no counter overflows in one of
them.

## Main definitions

* `Agree` — two computations end alike, unless a counter overflows.
* `Position.Matches` — two positions differ in their counters at most.

## Main results

* `Position.Matches.agree_legalMoves`, `Position.Matches.agree_perft`,
  `Position.Matches.agree_search` — what is computed by playing moves.
* `Position.not_overflows_search` — a search with room in the counters.
* `Position.eq_of_matches` — all of it.
-/
namespace ChessMachine

section

variable {α β : Type} {R : α → α → Prop} {S : β → β → Prop} {x y : Except Failure α}
  {f g : α → Except Failure β}

/-- Two computations end with related values or with the same fault, unless a counter overflows in
one of them. -/
inductive Agree (R : α → α → Prop) : Except Failure α → Except Failure α → Prop where
  | ok {a b : α} (related : R a b) : Agree R (.ok a) (.ok b)
  | fault (f : Fault) : Agree R (.error (.fault f)) (.error (.fault f))
  | left (o : Overflow) (y : Except Failure α) : Agree R (.error (.overflow o)) y
  | right (x : Except Failure α) (o : Overflow) : Agree R x (.error (.overflow o))

namespace Agree

theorem refl (x : Except Failure α) : Agree Eq x x := by
  cases x with
  | ok a => exact .ok rfl
  | error e =>
    cases e with
    | fault f => exact .fault f
    | overflow o => exact .left o _

/-- Computations that agree still agree after steps that do. -/
theorem bind (first : Agree R x y) (next : ∀ a b, R a b → Agree S (f a) (g b)) :
    Agree S (x >>= f) (y >>= g) := by
  cases first with
  | ok related => exact next _ _ related
  | fault f => exact .fault f
  | left o y => exact .left o _
  | right x o => exact .right _ o

/-- The same values are found first. -/
theorem bind_eq (first : Agree Eq x y) (next : ∀ a, Agree S (f a) (g a)) :
    Agree S (x >>= f) (y >>= g) := first.bind fun a _ same => same ▸ next a

/-- Computations that agree are equal unless a counter overflows. -/
theorem eq (h : Agree Eq x y) (left : ¬ Overflows x) (right : ¬ Overflows y) : x = y := by
  cases h with
  | ok same => rw [same]
  | fault f => rfl
  | left o y => exact absurd ⟨o, rfl⟩ left
  | right x o => exact absurd ⟨o, rfl⟩ right

end Agree

end

namespace Position

variable {p q : Position} {w : Weights} {m : Move} {moves : List Move} {depth : Nat}

/-! ## What looks at one position -/

def withCounters (p : Position) (halfmove fullmove : UInt64) : Position :=
  { p with halfmove, fullmove }

section

variable (p : Position) (half full : UInt64)

theorem reach_withCounters (c : Color) (squares : List Square) :
    (p.withCounters half full).reach c squares = p.reach c squares := by
  induction squares with
  | nil => rfl
  | cons s rest ih =>
    rw [reach, reach, ih]
    rfl

theorem pieceMoves_withCounters (src : Square) (piece : Piece) :
    (p.withCounters half full).pieceMoves src piece = p.pieceMoves src piece := by
  obtain ⟨c, kind⟩ := piece
  cases kind with
  | pawn | knight | king => rfl
  | bishop | rook | queen => simp only [pieceMoves, rayTargets, reach_withCounters]

/-- The counters have no say in how pieces move. -/
theorem pseudoLegalMoves_withCounters :
    (p.withCounters half full).pseudoLegalMoves = p.pseudoLegalMoves := by
  simp only [pseudoLegalMoves, pieceMoves_withCounters]
  rfl

end

/-- Two positions differ in their counters at most. -/
structure Matches (p q : Position) : Prop where
  board : q.board = p.board
  toMove : q.toMove = p.toMove
  rights : q.rights = p.rights
  enPassant : q.enPassant = p.enPassant

namespace Matches

variable (same : p.Matches q)
include same

theorem eq_withCounters : q = p.withCounters q.halfmove q.fullmove := by
  obtain ⟨board, toMove, rights, enPassant⟩ := same
  cases q
  simp_all [withCounters]

theorem pseudoLegalMoves : q.pseudoLegalMoves = p.pseudoLegalMoves := by
  rw [same.eq_withCounters, pseudoLegalMoves_withCounters]

theorem inCheck (c : Color) : q.inCheck c = p.inCheck c := by
  rw [same.eq_withCounters]
  rfl

theorem evaluate (w : Weights) : q.evaluate w = p.evaluate w := by
  rw [same.eq_withCounters]
  rfl

theorem isPathSafe (m : Move) : q.isPathSafe m = p.isPathSafe m := by
  rw [same.eq_withCounters]
  rfl

theorem isCastling (m : Move) : q.isCastling m = p.isCastling m := by
  rw [same.eq_withCounters]
  rfl

theorem terminalScore : q.terminalScore = p.terminalScore := by
  rw [same.eq_withCounters]
  rfl

theorem king? (c : Color) : q.king? c = p.king? c := by
  rw [same.eq_withCounters]
  rfl

/-! ## Playing moves -/

/-- A move that is played in both positions leaves positions that match. -/
theorem of_played {p' q' : Position} {piece : Piece} (left : p.Played m piece p')
    (right : q.Played m piece q') : p'.Matches q' := by
  have eq := same.eq_withCounters
  refine ⟨?_, ?_, ?_, ?_⟩
  · rw [right.board, left.board, eq]
    rfl
  · rw [right.toMove, left.toMove, same.toMove]
  · rw [right.rights, left.rights, eq]
    rfl
  · rw [right.enPassant, left.enPassant]

/-- A move can be played in both positions or in none, unless a counter overflows. -/
theorem agree_play (m : Move) :
    Agree Matches (liftM (p.play m)) (liftM (q.play m) : Except Failure Position) := by
  cases left : p.play m with
  | error o => exact .left o _
  | ok p' =>
    cases right : q.play m with
    | error o => exact .right _ o
    | ok q' =>
      refine .ok ?_
      have there : q.piece? m.src = p.piece? m.src := congrArg (Board.piece? · m.src) same.board
      cases here : p.piece? m.src with
      | none =>
        rw [play, here] at left
        rw [play, there, here] at right
        obtain rfl := Except.ok.inj left
        obtain rfl := Except.ok.inj right
        exact same
      | some piece =>
        exact same.of_played (played_of_play here left) (played_of_play (there.trans here) right)

theorem agree_isLegal (m : Move) : Agree Eq (p.isLegal m) (q.isLegal m) := by
  have last : Agree Eq (do return !(← (← p.play m).inCheck p.toMove) : Except Failure Bool)
      (do return !(← (← q.play m).inCheck q.toMove)) := by
    refine (same.agree_play m).bind fun p' q' after => ?_
    rw [after.inCheck, same.toMove]
    exact .refl _
  rw [isLegal, isLegal, same.isCastling, same.isPathSafe]
  split
  · refine (Agree.refl _).bind_eq fun way => ?_
    cases way with
    | false => exact .refl _
    | true => exact last
  · exact last

theorem agree_addLegal (found : Array Move) (moves : List Move) :
    Agree Eq (p.addLegal found moves) (q.addLegal found moves) := by
  induction moves generalizing found with
  | nil => exact .refl _
  | cons m rest ih =>
    rw [addLegal, addLegal]
    refine (same.agree_isLegal m).bind_eq fun answer => ?_
    split
    · split
      · exact ih _
      · exact .refl _
    · exact ih found

/-- Both positions have the same legal moves, in the same order. -/
theorem agree_legalMoves : Agree Eq p.legalMoves q.legalMoves := by
  rw [legalMoves, legalMoves, same.pseudoLegalMoves]
  exact (same.agree_addLegal #[] _).bind_eq fun found => .refl _

/-! ## Counting sequences of moves -/

theorem agree_sumOver {count : Position → Except Failure Nat}
    (each : ∀ {p q : Position}, p.Matches q → Agree Eq (count p) (count q)) (moves : List Move) :
    Agree Eq (p.sumOver count moves) (q.sumOver count moves) := by
  induction moves with
  | nil => exact .refl _
  | cons m rest ih =>
    rw [sumOver_cons, sumOver_cons]
    have here := (same.agree_play m).bind fun p' q' after => each after
    exact here.bind_eq fun number => ih.bind_eq fun others => .refl _

theorem agree_perft (bulk : Bool) (depth : Nat) :
    Agree Eq (p.perft bulk depth) (q.perft bulk depth) := by
  induction depth generalizing p q with
  | zero => exact .refl _
  | succ depth ih =>
    rw [perft, perft]
    refine same.agree_legalMoves.bind_eq fun moves => ?_
    split
    · exact .refl _
    · exact same.agree_sumOver ih moves

/-! ## Searching -/

theorem agree_bestOf (best : Option (Move × Score)) (moves : List Move) :
    Agree Eq (p.bestOf w best moves) (q.bestOf w best moves) := by
  induction moves generalizing best with
  | nil => exact .refl _
  | cons m rest ih =>
    rw [bestOf, bestOf, same.toMove]
    refine (same.agree_play m).bind fun p' q' after => ?_
    rw [after.evaluate]
    refine (Agree.refl _).bind_eq fun score => ?_
    split
    · exact ih _
    · exact ih best

theorem agree_bestMove (w : Weights) : Agree Eq (p.bestMove w) (q.bestMove w) := by
  rw [bestMove, bestMove]
  exact same.agree_legalMoves.bind_eq fun moves =>
    (same.agree_bestOf none moves).bind_eq fun best => .refl _

theorem agree_tryMoves {child : Position → Score → Score → Except Failure SearchResult}
    (each : ∀ {p q : Position}, p.Matches q → ∀ alpha beta,
      Agree Eq (child p alpha beta) (child q alpha beta)) (r : Progress) (moves : List Move) :
    Agree Eq (p.tryMoves child r moves) (q.tryMoves child r moves) := by
  induction moves generalizing r with
  | nil => exact .refl _
  | cons m rest ih =>
    rw [tryMoves, tryMoves, same.toMove]
    refine (same.agree_play m).bind fun p' q' after => ?_
    refine (each after _ _).bind_eq fun found => ?_
    dsimp only
    split
    · exact .refl _
    · exact ih _

theorem agree_examine {goOn goOn' : List Move → Except Failure SearchResult}
    (each : ∀ moves, Agree Eq (goOn moves) (goOn' moves)) :
    Agree Eq (p.examine w goOn) (q.examine w goOn') := by
  rw [examine, examine, same.toMove, same.king?, same.evaluate, same.terminalScore]
  split
  · exact .refl _
  · refine same.agree_legalMoves.bind_eq fun moves => ?_
    cases moves with
    | nil => exact .refl _
    | cons m rest => exact each _

/-- A search takes the same way through both positions, and counts the same nodes. -/
theorem agree_alphaBeta (w : Weights) (depth : Nat) (alpha beta : Score) :
    Agree Eq (p.alphaBeta w depth alpha beta) (q.alphaBeta w depth alpha beta) := by
  induction depth generalizing p q alpha beta with
  | zero =>
    rw [alphaBeta, alphaBeta, same.evaluate]
    exact same.agree_examine fun moves => .refl _
  | succ depth ih =>
    rw [alphaBeta, alphaBeta, same.toMove]
    exact same.agree_examine fun moves => same.agree_tryMoves ih _ moves

theorem agree_search (w : Weights) (depth : Nat) :
    Agree Eq (p.search w depth) (q.search w depth) := by
  rw [search, search, same.toMove, same.king?, same.evaluate]
  split
  · exact .refl _
  · exact same.agree_legalMoves.bind_eq fun moves =>
      (same.agree_alphaBeta w _ _ _).bind_eq fun result => .refl _

end Matches

/-! ## Room for a search -/

theorem not_overflows_tryMoves
    {child : Position → Score → Score → Except Failure SearchResult} {n : Nat}
    (room : p.HasRoom (n + 1))
    (each : ∀ {q : Position}, q.HasRoom n → ∀ alpha beta, ¬ Overflows (child q alpha beta))
    (r : Progress) : ¬ Overflows (p.tryMoves child r moves) := by
  induction moves generalizing r with
  | nil => exact not_overflows_ok _
  | cons m rest ih =>
    obtain ⟨q, played, left⟩ := room.exists_play m
    rw [tryMoves, played]
    show ¬ Overflows (child q r.alpha r.beta >>= _)
    refine not_overflows_bind (each left _ _) fun found _ => ?_
    dsimp only
    split
    · exact not_overflows_ok _
    · exact ih _

theorem not_overflows_examine {goOn : List Move → Except Failure SearchResult}
    (room : p.HasRoom 1) (each : ∀ moves, ¬ Overflows (goOn moves)) :
    ¬ Overflows (p.examine w goOn) := by
  rw [examine]
  split
  · exact not_overflows_bind (not_overflows_liftM_fault _) fun _ _ => not_overflows_ok _
  · refine not_overflows_bind (not_overflows_legalMoves room) fun moves _ => ?_
    cases moves with
    | nil => exact not_overflows_bind (not_overflows_liftM_fault _) fun _ _ => not_overflows_ok _
    | cons m rest => exact each _

/-- At the greatest depth moves are played to see whether they are legal. -/
theorem not_overflows_alphaBeta (room : p.HasRoom (depth + 1)) (alpha beta : Score) :
    ¬ Overflows (p.alphaBeta w depth alpha beta) := by
  induction depth generalizing p alpha beta with
  | zero =>
    rw [alphaBeta]
    exact not_overflows_examine room fun _ =>
      not_overflows_bind (not_overflows_liftM_fault _) fun _ _ => not_overflows_ok _
  | succ depth ih =>
    rw [alphaBeta]
    exact not_overflows_examine (room.mono (by omega)) fun moves =>
      not_overflows_tryMoves room ih _

/-- With room for all its plies, a search overflows no counter. -/
theorem not_overflows_search (room : p.HasRoom (max depth 1 + 1)) :
    ¬ Overflows (p.search w depth) := by
  rw [search]
  split
  · exact not_overflows_bind (not_overflows_liftM_fault _) fun _ _ => not_overflows_ok _
  · refine not_overflows_bind (not_overflows_legalMoves (room.mono (by omega))) fun moves _ => ?_
    exact not_overflows_bind (not_overflows_alphaBeta room _ _) fun _ _ => not_overflows_ok _

theorem not_overflows_bestMove (room : p.HasRoom 1) : ¬ Overflows (p.bestMove w) := by
  have chosen (best : Option (Move × Score)) (moves : List Move) :
      ¬ Overflows (p.bestOf w best moves) := by
    induction moves generalizing best with
    | nil => exact not_overflows_ok _
    | cons m rest ih =>
      obtain ⟨q, played, -⟩ := room.exists_play m
      rw [bestOf, played]
      show ¬ Overflows (liftM (q.evaluate w) >>= _)
      refine not_overflows_bind (not_overflows_liftM_fault _) fun score _ => ?_
      split
      · exact ih _
      · exact ih _
  rw [bestMove]
  exact not_overflows_bind (not_overflows_legalMoves room) fun moves _ =>
    not_overflows_bind (chosen none moves) fun _ _ => not_overflows_ok _

/-- Two positions that differ in their counters at most have the same moves, checks, evaluations,
counts of move sequences and search results, provided that no counter overflows in the plies that
are looked at. -/
theorem eq_of_matches (p q : Position) (same : p.Matches q) :
    p.pseudoLegalMoves = q.pseudoLegalMoves ∧
    (∀ c, p.inCheck c = q.inCheck c) ∧
    (∀ w, p.evaluate w = q.evaluate w) ∧
    (¬ Overflows p.legalMoves → ¬ Overflows q.legalMoves → p.legalMoves = q.legalMoves) ∧
    (∀ w, ¬ Overflows (p.bestMove w) → ¬ Overflows (q.bestMove w) →
      p.bestMove w = q.bestMove w) ∧
    (∀ bulk depth, ¬ Overflows (p.perft bulk depth) → ¬ Overflows (q.perft bulk depth) →
      p.perft bulk depth = q.perft bulk depth) ∧
    ∀ w depth, ¬ Overflows (p.search w depth) → ¬ Overflows (q.search w depth) →
      p.search w depth = q.search w depth :=
  ⟨same.pseudoLegalMoves.symm, fun c => (same.inCheck c).symm, fun w => (same.evaluate w).symm,
    same.agree_legalMoves.eq, fun w => (same.agree_bestMove w).eq,
    fun bulk depth => (same.agree_perft bulk depth).eq,
    fun w depth => (same.agree_search w depth).eq⟩

theorem eq_of_matches_rookEndgame :
    rookEndgame.legalMoves = (rookEndgame.withCounters 99 400).legalMoves ∧
    rookEndgame.bestMove Weights.initial = (rookEndgame.withCounters 99 400).bestMove .initial ∧
    rookEndgame.perft true 5 = (rookEndgame.withCounters 99 400).perft true 5 ∧
    rookEndgame.search Weights.initial 4 = (rookEndgame.withCounters 99 400).search .initial 4 := by
  have room : rookEndgame.HasRoom 6 := by decide
  have late : (rookEndgame.withCounters 99 400).HasRoom 6 := by decide
  have one : 1 ≤ 6 := by decide
  have five : 5 ≤ 6 := by decide
  obtain ⟨-, -, -, legal, best, counts, search⟩ :=
    eq_of_matches rookEndgame (rookEndgame.withCounters 99 400) ⟨rfl, rfl, rfl, rfl⟩
  exact ⟨legal (not_overflows_legalMoves (room.mono one))
      (not_overflows_legalMoves (late.mono one)),
    best _ (not_overflows_bestMove (room.mono one)) (not_overflows_bestMove (late.mono one)),
    counts true 5 (not_overflows_perft true (room.mono five))
      (not_overflows_perft true (late.mono five)),
    search _ 4 (not_overflows_search (room.mono five)) (not_overflows_search (late.mono five))⟩

end Position

end ChessMachine
