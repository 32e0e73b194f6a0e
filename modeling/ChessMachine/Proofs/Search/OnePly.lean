import ChessMachine.Proofs.Search.Mate

/-!
# One ply ahead

The best move by evaluation one ply ahead is the first one of those after which the position
evaluates best. A search to a depth of one evaluates the same positions, except where the opponent
is left without a move; it drops moves only once the score cannot rise, and it starts with the first
move where the other choice starts with none. Neither makes a difference.

## Main definitions

* `Position.IsBest` — the choice among some lines.
* `Position.GoesOn` — no move leaves the opponent a king but no move.

## Main results

* `Position.exists_lines_of_bestOf` — the choice by evaluation is such a choice.
* `Position.tryMoves_of_forall` — moves that are tried in another way, with the same results.
* `Position.exists_bestMove` — there is a best move if no sum of few pieces is too great.
* `Position.search_eq_bestMove` — a search to a depth of one finds the best move.
-/
namespace ChessMachine

namespace Position

variable {w : Weights} {p q : Position} {depth : Nat} {s t : Score} {m n : Move}
  {moves rest : List Move} {lines before : List (Move × Score)} {c : Color}
  {best out : Option (Move × Score)}

/-! ## The first of the best -/

/-- The first one of the best lines of `c`, if there is a line. -/
def IsBest (c : Color) (lines : List (Move × Score)) : Option (Move × Score) → Prop
  | none => lines = []
  | some (m, s) => IsFirst lines s m ∧ ∀ line ∈ lines, c.gain line.2 ≤ c.gain s

/-- A line that is better than all before is the best from then on. -/
theorem isBest_of_lt (better : ∀ line ∈ before, c.gain line.2 < c.gain s) :
    IsBest c (before ++ [(m, s)]) (some (m, s)) := by
  refine ⟨⟨before, [], rfl, fun line mem same => ?_⟩, ?_⟩
  · have := better line mem
    rw [same] at this
    omega
  · rw [List.forall_mem_append, List.forall_mem_singleton]
    exact ⟨fun line mem => Int.le_of_lt (better line mem), Int.le_refl _⟩

/-- One more line. -/
theorem IsBest.append (h : IsBest c before best) (m : Move) (s : Score) :
    IsBest c (before ++ [(m, s)])
      (if best.all fun (_, t) => c.prefers s t then some (m, s) else best) := by
  cases best with
  | none =>
    obtain rfl : before = [] := h
    exact isBest_of_lt (by simp)
  | some line =>
    obtain ⟨n, t⟩ := line
    obtain ⟨first, bound⟩ := h
    by_cases better : c.gain t < c.gain s
    · rw [Option.all_some, if_pos (Color.prefers_iff.2 better)]
      exact isBest_of_lt fun line mem => Int.lt_of_le_of_lt (bound line mem) better
    · rw [Option.all_some, if_neg (mt Color.prefers_iff.1 better)]
      refine ⟨first.append _, ?_⟩
      rw [List.forall_mem_append, List.forall_mem_singleton]
      exact ⟨bound, Int.not_lt.1 better⟩

/-! ## The choice by evaluation -/

/-- A move together with the evaluation of the position after it. -/
def EvaluatesTo (w : Weights) (p : Position) (line : Move × Score) : Prop :=
  ∃ q, p.play line.1 = .ok q ∧ q.evaluate w = .ok line.2

/-- A move takes the place of the best one before if it is better. -/
theorem bestOf_cons (score : p.EvaluatesTo w (m, s)) :
    p.bestOf w best (m :: rest) =
      p.bestOf w (if best.all fun (_, t) => p.toMove.prefers s t then some (m, s) else best)
        rest := by
  obtain ⟨q, played, value⟩ := score
  rw [bestOf, played]
  show ((liftM (q.evaluate w) : Except Failure Score) >>= _) = _
  rw [value]
  exact (apply_ite (p.bestOf w · rest) ..).symm

/-- The choice among moves evaluates the position after each of them. -/
theorem exists_lines_of_bestOf (h : p.bestOf w best moves = .ok out)
    (isBest : IsBest p.toMove before best) :
    ∃ lines, lines.map Prod.fst = moves ∧ (∀ line ∈ lines, p.EvaluatesTo w line) ∧
      IsBest p.toMove (before ++ lines) out := by
  induction moves generalizing best before with
  | nil =>
    obtain rfl := Except.ok.inj h
    exact ⟨[], rfl, List.forall_mem_nil _, by rwa [List.append_nil]⟩
  | cons m rest ih =>
    have score : ∃ s, p.EvaluatesTo w (m, s) := by
      rw [bestOf] at h
      obtain ⟨q, played, h⟩ := bind_eq_ok_iff.1 h
      obtain ⟨s, value, -⟩ := bind_eq_ok_iff.1 h
      exact ⟨s, q, Failure.liftM_overflow_eq_ok_iff.1 played,
        Failure.liftM_fault_eq_ok_iff.1 value⟩
    obtain ⟨s, value⟩ := score
    rw [bestOf_cons value] at h
    obtain ⟨lines, rfl, all, isBest⟩ := ih h (isBest.append m s)
    exact ⟨(m, s) :: lines, rfl, List.forall_mem_cons.2 ⟨value, all⟩, by simpa using isBest⟩

/-- If every position after a move can be evaluated, there is a choice. -/
theorem exists_bestOf (best : Option (Move × Score))
    (all : ∀ m ∈ moves, ∃ s, p.EvaluatesTo w (m, s)) : ∃ out, p.bestOf w best moves = .ok out := by
  induction moves generalizing best with
  | nil => exact ⟨best, rfl⟩
  | cons m rest ih =>
    obtain ⟨s, value⟩ := all m List.mem_cons_self
    rw [bestOf_cons value]
    exact ih _ fun k mem => all k (List.mem_cons_of_mem m mem)

/-- The best move is chosen among the legal ones. -/
theorem bestMove_eq_ok_iff {choice : Option Move} : p.bestMove w = .ok choice ↔
    ∃ moves, p.legalMoves = .ok moves ∧ ∃ out, p.bestOf w none moves = .ok out ∧
      choice = out.map Prod.fst := by
  simp only [bestMove, bind_eq_ok_iff, pure_eq_ok_iff]

/-- With few pieces of moderate value, there is a best move by evaluation one ply ahead. -/
theorem exists_bestMove (moderate : w.IsModerate) (sound : p.Sound) (few : p.occupiedCount ≤ 32)
    (legal : p.legalMoves = .ok moves) : ∃ choice, p.bestMove w = .ok choice := by
  have all : ∀ m ∈ moves, ∃ s, p.EvaluatesTo w (m, s) := by
    intro m mem
    obtain ⟨q, played, soundAfter⟩ := sound.of_play legal mem
    obtain ⟨k, only⟩ := soundAfter.king q.toMove
    have fewer := Nat.le_trans (occupiedCount_le_of_play legal mem played) few
    obtain ⟨s, value, -⟩ := exists_evaluate_of_isModerate moderate fewer (king?_of_unique only)
    exact ⟨s, q, played, value⟩
  obtain ⟨out, chosen⟩ := exists_bestOf none all
  exact ⟨_, bestMove_eq_ok_iff.2 ⟨moves, legal, out, chosen, rfl⟩⟩

/-! ## Searching one ply -/

def glance (w : Weights) (p : Position) (_ _ : Score) : Except Failure SearchResult := do
  return leaf (← p.evaluate w)

theorem glance_of_evaluate {alpha beta : Score} (value : p.evaluate w = .ok s) :
    p.glance w alpha beta = .ok (leaf s) := by
  rw [glance, value]
  rfl

/-- A glance answers with the evaluation in every window. -/
theorem foretells_glance (value : p.evaluate w = .ok s) : Foretells (p.glance w) s :=
  fun _ _ _ => ⟨_, glance_of_evaluate value, .refl ..⟩

/-- A search that ends here evaluates the position, unless its side has a king and no move. -/
theorem glance_of_alphaBeta {alpha beta : Score} {r : SearchResult}
    (goesOn : p.king? p.toMove = none ∨ p.legalMoves ≠ .ok [])
    (found : p.alphaBeta w 0 alpha beta = .ok r) : p.glance w alpha beta = .ok r := by
  rw [alphaBeta, examine] at found
  split at found
  · exact found
  · rename_i there
    obtain ⟨moves, legal, found⟩ := bind_eq_ok_iff.1 found
    cases moves with
    | nil =>
      rcases goesOn with none | some
      · exact absurd (by simp [none]) there
      · exact absurd legal some
    | cons m rest => exact found

/-- Moves can be tried in another way that finds the same after each of them. -/
theorem tryMoves_of_forall {child other : Position → Score → Score → Except Failure SearchResult}
    {r : Progress} {result : SearchResult}
    (same : ∀ m ∈ moves, ∀ q, p.play m = .ok q → ∀ {alpha beta found},
      child q alpha beta = .ok found → other q alpha beta = .ok found)
    (tried : p.tryMoves child r moves = .ok result) : p.tryMoves other r moves = .ok result := by
  induction moves generalizing r with
  | nil => exact tried
  | cons m rest ih =>
    have step : ∃ q found, p.play m = .ok q ∧ child q r.alpha r.beta = .ok found := by
      rw [tryMoves] at tried
      obtain ⟨q, played, tried⟩ := bind_eq_ok_iff.1 tried
      obtain ⟨found, below, -⟩ := bind_eq_ok_iff.1 tried
      exact ⟨q, found, Failure.liftM_overflow_eq_ok_iff.1 played, below⟩
    obtain ⟨q, found, played, below⟩ := step
    rw [tryMoves_cons played below] at tried
    rw [tryMoves_cons played (same m List.mem_cons_self q played below)]
    split at tried
    · rwa [if_pos (by assumption)]
    · rw [if_neg (by assumption)]
      exact ih (fun k mem => same k (List.mem_cons_of_mem m mem)) tried

/-- The opponent is left with no king or with a move, whatever is played. -/
def GoesOn (p : Position) : Prop :=
  ∀ moves, p.legalMoves = .ok moves → ∀ m ∈ moves, ∀ q, p.play m = .ok q →
    q.king? q.toMove = none ∨ q.legalMoves ≠ .ok []

/-- A search of one ply finds the best of the evaluations after the moves, where play goes on. -/
theorem answers_of_alphaBeta {found : SearchResult} (king : p.king? p.toMove ≠ none)
    (goesOn : p.GoesOn) (legal : p.legalMoves = .ok (lines.map Prod.fst))
    (values : ∀ line ∈ lines, p.EvaluatesTo w line)
    (bound : ∀ line ∈ lines, p.toMove.gain line.2 ≤ p.toMove.gain s)
    (attained : ∃ m, (m, s) ∈ lines)
    (within : p.alphaBeta w 1 Score.negInf Score.inf = .ok found) :
    Progress.Answers p.toMove (-Score.bound) Score.bound lines s found := by
  have foresees : ∀ line ∈ lines, ∃ q, p.play line.1 = .ok q ∧ Foretells (glance w q) line.2 := by
    intro line mem
    obtain ⟨q, played, value⟩ := values line mem
    exact ⟨q, played, foretells_glance value⟩
  have tried : p.tryMoves (alphaBeta w 0) (Progress.start p.toMove Score.negInf Score.inf)
      (lines.map Prod.fst) = .ok found := by
    cases lines with
    | nil => simp at attained
    | cons line rest => exact (examine_of_moves king legal).symm.trans within
  -- moves that were left out may be impossible to search, but their evaluations are known
  have glanced := tryMoves_of_forall
    (fun m mem q played _ _ _ => glance_of_alphaBeta (goesOn _ legal m mem q played)) tried
  obtain ⟨lo_ge, -, hi_le⟩ := Progress.floor_start p.toMove window_full
  obtain ⟨result, again, answers⟩ := exists_tryMoves lo_ge hi_le
    (Progress.tracks_start p.toMove window_full) foresees bound attained
  obtain rfl := Except.ok.inj (again.symm.trans glanced)
  rwa [(start_full p.toMove).1, (start_full p.toMove).2] at answers

/-- In a position with a king, where no move leaves the opponent a king but no move, a search to a
depth of at most one finds the best move by evaluation one ply ahead, and the evaluation of the
position after it. -/
theorem search_eq_bestMove (w : Weights) (p : Position) (depth : Nat) (r : SearchResult)
    (choice : Option Move) (king : p.king? p.toMove ≠ none) (goesOn : p.GoesOn)
    (shallow : depth ≤ 1) (searched : p.search w depth = .ok r)
    (chosen : p.bestMove w = .ok choice) :
    r.best = choice ∧ (choice = none ↔ p.legalMoves = .ok []) ∧
      ∀ m, choice = some m → ∃ q, p.play m = .ok q ∧ q.evaluate w = .ok r.score := by
  obtain ⟨moves, legal, out, bestOf, rfl⟩ := bestMove_eq_ok_iff.1 chosen
  obtain ⟨lines, rfl, values, isBest⟩ := exists_lines_of_bestOf bestOf rfl
  obtain ⟨found, within, rfl⟩ := (search_eq_ok_iff king legal).1 searched
  rw [Nat.max_eq_right shallow] at within
  rw [List.nil_append] at isBest
  cases out with
  | none =>
    obtain rfl : lines = [] := isBest
    have ended : p.alphaBeta w 1 Score.negInf Score.inf = .ok (leaf _) :=
      examine_of_no_moves king legal p.terminalScore_eq
    obtain rfl := Except.ok.inj (ended.symm.trans within)
    exact ⟨rfl, ⟨fun _ => legal, fun _ => rfl⟩, nofun⟩
  | some line =>
    obtain ⟨m, s⟩ := line
    obtain ⟨first, bound⟩ := isBest
    have attained : ∃ m, (m, s) ∈ lines := ⟨m, first.mem⟩
    have range : ∀ line ∈ lines, line.2.InRange := by
      intro line mem
      obtain ⟨q, -, value⟩ := values line mem
      exact evaluate_inRange value
    have answers := answers_of_alphaBeta king goesOn legal values bound attained within
    obtain ⟨n, best, same⟩ := exists_isFirst range bound attained answers
    obtain rfl := first.eq same
    obtain rfl := eq_of_answers (range _ first.mem) answers
    refine ⟨best, iff_of_false (Option.some_ne_none _) fun none => ?_, fun k chosen => ?_⟩
    · rw [legal, Except.ok.injEq, List.map_eq_nil_iff] at none
      rw [none] at first
      cases first.mem
    · obtain rfl := Option.some.inj chosen
      exact values _ first.mem

/-- The kings are far apart, and White has a pawn. -/
def pawnEnding : Position where
  board := ((Board.empty.place ⟨.white, .king⟩ ⟨.a, Rank.first .white⟩).place ⟨.white, .pawn⟩
    ⟨.c, Rank.second .white⟩).place ⟨.black, .king⟩ ⟨.h, Rank.first .black⟩
  toMove := .white
  rights := {}
  enPassant := none
  halfmove := 0
  fullmove := 1

theorem sound_pawnEnding : pawnEnding.Sound :=
  .of_kings ⟨.a, Rank.first .white⟩ ⟨.h, Rank.first .black⟩ (by decide +kernel)
    (by decide +kernel) rfl

theorem few_pawnEnding : pawnEnding.occupiedCount ≤ 7 :=
  Board.count_place_le_succ <| Board.count_place_le_succ <| Board.count_place_le_succ <|
    Board.count_empty_le 4

theorem legalMoves_pawnEnding : pawnEnding.legalMoves = .ok pawnEnding.allowedMoves :=
  sound_pawnEnding.legalMoves_of_few few_pawnEnding (by decide)

/-- Black always has a move left. -/
theorem goesOn_pawnEnding : pawnEnding.GoesOn := by
  intro moves legal m mem q played
  have answer : ∀ m ∈ pawnEnding.pseudoLegalMoves,
      (pawnEnding.play m).toOption.all fun q => q.allowedMoves ≠ [] := by decide +kernel
  have some := answer m (of_mem_legalMoves legal mem).1
  rw [played] at some
  obtain ⟨r, again, sound⟩ := sound_pawnEnding.of_play legal mem
  obtain rfl := Except.ok.inj (played.symm.trans again)
  obtain ⟨r, again, room⟩ : ∃ r, pawnEnding.play m = .ok r ∧ r.HasRoom 1 :=
    HasRoom.exists_play (by decide) m
  obtain rfl := Except.ok.inj (played.symm.trans again)
  have few := Nat.le_trans (occupiedCount_le_of_play legal mem played) few_pawnEnding
  rw [sound.legalMoves_of_few few room]
  exact .inr fun none => of_decide_eq_true some (Except.ok.inj none)

theorem search_eq_bestMove_pawnEnding : ∃ r m, pawnEnding.search Weights.initial 1 = .ok r ∧
    pawnEnding.bestMove Weights.initial = .ok (some m) ∧ r.best = some m := by
  have moderate := Weights.isModerate_initial
  have few := Nat.le_trans few_pawnEnding (by decide : 7 ≤ 32)
  have king := sound_pawnEnding.king?_ne_none .white
  have explorable : pawnEnding.Explorable 1 :=
    sound_pawnEnding.explorable few_pawnEnding (by decide)
  obtain ⟨s, score, -⟩ := tellsMates moderate sound_pawnEnding few explorable
  obtain ⟨r, searched, -⟩ : ∃ r, pawnEnding.search Weights.initial 1 = .ok r ∧ r.score = s :=
    exists_search_score king legalMoves_pawnEnding score
  obtain ⟨choice, chosen⟩ := exists_bestMove moderate sound_pawnEnding few legalMoves_pawnEnding
  obtain ⟨best, none_iff, -⟩ := search_eq_bestMove Weights.initial pawnEnding 1 r choice king
    goesOn_pawnEnding (Nat.le_refl 1) searched chosen
  cases choice with
  | none =>
    have moves : pawnEnding.allowedMoves ≠ [] := by decide +kernel
    exact absurd (Except.ok.inj (legalMoves_pawnEnding.symm.trans (none_iff.1 rfl))) moves
  | some m => exact ⟨r, m, searched, chosen, best⟩

end Position

end ChessMachine
