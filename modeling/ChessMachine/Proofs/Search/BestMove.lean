import ChessMachine.Proofs.Search.ForcedMate
import ChessMachine.Proofs.Search.Pruning

/-!
# The best move

A search finds the minimax score, and the first of the moves that lead to it, whether or not all
moves lose.

## Main results

* `Position.exists_search_of_moves` — what a search finds where there are moves.
* `Position.search_eq_minimax` — what a search finds.
-/
namespace ChessMachine

namespace Position

variable {w : Weights} {p : Position} {depth : Nat} {s : Score} {m : Move} {rest : List Move}

/-- The whole range of scores is a window. -/
theorem window_full : Window Score.negInf Score.inf := ⟨by decide, by decide, by decide⟩

theorem start_full (c : Color) :
    (Progress.start c Score.negInf Score.inf).floor c = -Score.bound ∧
      (Progress.start c Score.negInf Score.inf).ceiling c = Score.bound := by
  cases c <;> exact ⟨rfl, rfl⟩

/-- The first line with a score starts with the first move that leads to it. -/
theorem IsFirst.exists_moves {lines : List (Move × Score)} (first : IsFirst lines s m)
    {after : Move → Except Failure Score} (all : ∀ line ∈ lines, after line.1 = .ok line.2) :
    ∃ earlier later, lines.map Prod.fst = earlier ++ m :: later ∧ after m = .ok s ∧
      ∀ n ∈ earlier, after n ≠ .ok s := by
  obtain ⟨before, behind, rfl, others⟩ := first
  refine ⟨before.map Prod.fst, behind.map Prod.fst, by simp, all (m, s) (by simp), ?_⟩
  intro n hn same
  obtain ⟨line, hl, rfl⟩ := List.mem_map.1 hn
  rw [all line (List.mem_append_left _ hl)] at same
  exact others line hl (Except.ok.inj same)

/-- In the full window the score is exact. If it is that of being mated, all moves lead there. -/
theorem eq_of_answers {c : Color} {lines : List (Move × Score)} {r : SearchResult}
    (inRange : s.InRange)
    (answers : Progress.Answers c (-Score.bound) Score.bound lines s r) : r.score = s := by
  obtain ⟨lo, hi⟩ := gain_inRange c inRange
  obtain ⟨low, high, exact⟩ := answers.score
  have worst := answers.atLeast.worst
  rw [c.gain_mated] at worst
  exact (Color.gain_inj (c := c)).1 (by omega)

/-- The move that a search names, or else the first move, is the first one that leads to the
score. -/
theorem exists_isFirst {c : Color} {lines : List (Move × Score)} {r : SearchResult}
    (range : ∀ line ∈ lines, line.2.InRange) (bound : ∀ line ∈ lines, c.gain line.2 ≤ c.gain s)
    (attained : ∃ m, (m, s) ∈ lines)
    (answers : Progress.Answers c (-Score.bound) Score.bound lines s r) :
    ∃ n, (r.best <|> (lines.map Prod.fst).head?) = some n ∧ IsFirst lines s n := by
  obtain ⟨m, mem⟩ := attained
  have inRange : s.InRange := range _ mem
  have equal := eq_of_answers inRange answers
  by_cases above : -Score.bound < c.gain s
  · obtain ⟨n, best, first⟩ := answers.first (equal ▸ above) equal
    exact ⟨n, by rw [best]; rfl, first⟩
  · have least : c.gain s = -Score.bound := by
      have := gain_inRange c inRange
      omega
    have lost : s = Score.mated c := Color.gain_inj.1 (least.trans c.gain_mated.symm)
    cases lines with
    | nil => cases mem
    | cons line later =>
      refine ⟨line.1, by rw [answers.atLeast.lost (equal.trans lost)]; rfl, ?_⟩
      have lo := (gain_inRange c (range line List.mem_cons_self)).1
      have hi := bound line List.mem_cons_self
      obtain rfl : line.2 = s := (Color.gain_inj (c := c)).1 (by omega)
      exact ⟨[], later, rfl, by simp⟩

/-- A search is one within the full window, which falls back on the first move. -/
theorem search_eq_ok_iff {moves : List Move} {r : SearchResult} (king : p.king? p.toMove ≠ none)
    (legal : p.legalMoves = .ok moves) : p.search w depth = .ok r ↔
      ∃ found, p.alphaBeta w (max depth 1) Score.negInf Score.inf = .ok found ∧
        { found with best := found.best <|> moves.head? } = r := by
  obtain ⟨k, hk⟩ := Option.ne_none_iff_exists'.1 king
  have within : p.search w depth = p.alphaBeta w (max depth 1) Score.negInf Score.inf >>=
      fun found => .ok { found with best := found.best <|> moves.head? } := by
    rw [search, hk, legal]
    rfl
  rw [within, bind_eq_ok_iff]
  exact exists_congr fun found => and_congr_right fun _ => Except.ok.injEq .. |>.to_iff

/-- What a search finds where there are moves. -/
theorem exists_search_of_moves (king : p.king? p.toMove ≠ none)
    (moves : p.legalMoves = .ok (m :: rest)) (inRange : s.InRange)
    {lines : List (Move × Score)} (scored : p.Scored w (depth - 1) (m :: rest) s lines) :
    ∃ r n, p.search w depth = .ok r ∧ r.score = s ∧ r.best = some n ∧
      ∃ earlier later, m :: rest = earlier ++ n :: later ∧
        p.minimaxAfter w (depth - 1) n = .ok s ∧
        ∀ k ∈ earlier, p.minimaxAfter w (depth - 1) k ≠ .ok s := by
  obtain ⟨r, found, answers⟩ :=
    exists_alphaBeta_of_moves king moves scored foretells_alphaBeta window_full
  rw [(start_full p.toMove).1, (start_full p.toMove).2] at answers
  obtain ⟨n, best, first⟩ := exists_isFirst (fun line mem => scored.inRange mem) scored.bound
    scored.attained answers
  rw [scored.moves] at best
  have equal : r.score = s := eq_of_answers inRange answers
  have depth_eq : depth - 1 + 1 = max depth 1 := by omega
  rw [depth_eq] at found
  exact ⟨_, n, (search_eq_ok_iff king moves).2 ⟨r, found, rfl⟩, equal, best,
    scored.moves ▸ first.exists_moves scored.after⟩

/-- If the minimax score exists, a search finds it, together with the first move that leads to it.
Only without a king or a move there is no best move. -/
theorem search_eq_minimax (w : Weights) (p : Position) (depth : Nat) (s : Score)
    (h : p.minimax w (max depth 1) = .ok s) :
    ∃ r, p.search w depth = .ok r ∧ r.score = s ∧ Score.negInf ≤ s ∧ s ≤ Score.inf ∧
      (p.king? p.toMove = none → r.best = none) ∧
      (p.king? p.toMove ≠ none → ∃ moves, p.legalMoves = .ok moves ∧
        (r.best = none ↔ moves = []) ∧
        ∀ m, r.best = some m → ∃ earlier later, moves = earlier ++ m :: later ∧
          p.minimaxAfter w (depth - 1) m = .ok s ∧
          ∀ n ∈ earlier, p.minimaxAfter w (depth - 1) n ≠ .ok s) := by
  have inRange := minimax_inRange h
  have depth_eq : max depth 1 = depth - 1 + 1 := by omega
  rw [depth_eq] at h
  cases settled_of_settle h with
  | noKing king score =>
    refine ⟨⟨s, none, 0⟩, ?_, rfl, inRange.1, inRange.2, fun _ => rfl,
      fun there => absurd king there⟩
    rw [search, king, score]
    rfl
  | noMoves king moves score =>
    obtain ⟨k, hk⟩ := Option.ne_none_iff_exists'.1 king
    refine ⟨leaf s, ?_, rfl, inRange.1, inRange.2, fun _ => rfl, fun _ => ?_⟩
    · have found : p.alphaBeta w (depth - 1 + 1) Score.negInf Score.inf = .ok (leaf s) :=
        examine_of_no_moves king moves score
      rw [search, hk, moves, depth_eq]
      show (p.alphaBeta w (depth - 1 + 1) Score.negInf Score.inf >>= _) = _
      rw [found]
      rfl
    · exact ⟨[], moves, ⟨fun _ => rfl, fun _ => rfl⟩, nofun⟩
  | moves king moves score =>
    obtain ⟨lines, scored⟩ := exists_scored score
    obtain ⟨r, n, found, equal, best, first⟩ := exists_search_of_moves king moves inRange scored
    refine ⟨r, found, equal, inRange.1, inRange.2, fun missing => absurd missing king,
      fun _ => ⟨_, moves, by simp [best], fun m hm => ?_⟩⟩
    obtain rfl : n = m := Option.some.inj (best.symm.trans hm)
    exact first

/-- Both a queen and a rook would mate. The search finds the queen, which comes first. -/
theorem search_eq_minimax_backRank : ∃ r, backRank.search Weights.initial 2 = .ok r ∧
    r.score = Score.inf ∧ r.best = some toBackRank := by
  have moderate := Weights.isModerate_initial
  have few := Nat.le_trans few_backRank (by decide : 7 ≤ 32)
  have explorable : backRank.Explorable 2 := sound_backRank.explorable few_backRank (by decide)
  have won : backRank.minimax Weights.initial 2 = .ok Score.inf := by
    obtain ⟨s, score, tells⟩ := tellsMates moderate sound_backRank few explorable
    rw [score, (tells .white).2 (forces_backRank 1)]
    rfl
  have wins (m : Move) (mem : m ∈ backRank.allowedMoves) :
      backRank.minimaxAfter Weights.initial 1 m = .ok Score.inf ↔
        ∃ q, backRank.play m = .ok q ∧ q.Forces .white 1 :=
    minimaxAfter_eq_mated_iff (c := .white)
      (exists_tellsMates_after moderate sound_backRank few explorable legalMoves_backRank mem)
  obtain ⟨r, found, score, -, -, -, best⟩ :=
    search_eq_minimax Weights.initial backRank 2 Score.inf won
  obtain ⟨moves, legal, none_iff, first⟩ := best (sound_backRank.king?_ne_none _)
  obtain rfl := Except.ok.inj (legalMoves_backRank.symm.trans legal)
  obtain ⟨quiet, behind, listed, calm⟩ := allowedMoves_backRank
  obtain ⟨m, hm⟩ := Option.ne_none_iff_exists'.1 (mt none_iff.1 (by simp [listed]))
  obtain ⟨earlier, later, split, winner, others⟩ := first m hm
  refine ⟨r, found, score, ?_⟩
  have queen := (wins toBackRank (by simp [listed])).2 (exists_mated_backRank 1)
  -- a move that gives no check leads to another score
  have others' : ∀ k ∈ quiet, backRank.minimaxAfter Weights.initial 1 k ≠ .ok Score.inf := by
    intro k mem after
    obtain ⟨q, played, forced⟩ := (wins k (by simp [listed, mem])).1 after
    have turn : q.toMove = .black :=
      toMove_of_play legalMoves_backRank (by simp [listed, mem]) played
    have check := (forced.checkmated turn).1
    rw [turn, inCheck_eq] at check
    exact calm k mem q played (of_decide_eq_true (Except.ok.inj check))
  rw [hm, eq_of_first (P := fun k => backRank.minimaxAfter Weights.initial 1 k = .ok Score.inf)
    (split.symm.trans listed) winner queen others others']

end Position

end ChessMachine
