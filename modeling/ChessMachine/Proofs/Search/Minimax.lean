import ChessMachine.Proofs.Rules.Failure
import ChessMachine.Search.AlphaBeta

/-!
# Minimax

The score of a position to a depth, when every sequence of legal moves is followed to its end and
no move is left out.

## Main definitions

* `Color.gain` — a score as the side to move counts it.
* `Color.optimum` — the best of some scores.
* `Position.minimax` — the score of a position.

## Main results

* `Color.optimum_mem`, `Color.gain_le_optimum` — it is one of them, and none is better.
* `Position.minimax_inRange` — it lies between the scores of the two checkmates.
-/
namespace ChessMachine

namespace Score

theorem lt_iff {s t : Score} : s < t ↔ s.val < t.val := Iff.rfl

theorem le_iff {s t : Score} : s ≤ t ↔ s.val ≤ t.val := Iff.rfl

theorem val_inf : inf.val = bound := rfl

theorem val_negInf : negInf.val = -bound := rfl

theorem val_max (s t : Score) : (s.max t).val = Max.max s.val t.val := by
  rw [max]
  split <;> rename_i h <;> rw [lt_iff] at h <;> omega

theorem val_min (s t : Score) : (s.min t).val = Min.min s.val t.val := by
  rw [min]
  split <;> rename_i h <;> rw [lt_iff] at h <;> omega

/-- The score lies between those of the two checkmates. -/
def InRange (s : Score) : Prop := negInf ≤ s ∧ s ≤ inf

instance (s : Score) : Decidable s.InRange := inferInstanceAs (Decidable (_ ∧ _))

theorem inRange_mated (c : Color) : (mated c).InRange := by cases c <;> decide

theorem inRange_clamped (n : Int) : (clamped n).InRange := by
  have positive : 0 ≤ bound := by decide
  rw [InRange, le_iff, le_iff, val_clamped, val_negInf, val_inf]
  omega

end Score

namespace Color

/-- A score as a colour counts it: more is better. -/
def gain : Color → Score → Int
  | white, s => s.val
  | black, s => -s.val

theorem gain_inj {c : Color} {s t : Score} : c.gain s = c.gain t ↔ s = t := by
  refine ⟨fun h => Score.ext_val ?_, fun h => h ▸ rfl⟩
  cases c <;> simp only [gain] at h <;> omega

theorem gain_mated (c : Color) : c.gain (Score.mated c) = -Score.bound := by cases c <;> rfl

/-- A colour prefers what gains it more. -/
theorem prefers_iff {c : Color} {s t : Score} : c.prefers s t = true ↔ c.gain t < c.gain s := by
  cases c with
  | white => exact decide_eq_true_iff
  | black =>
    rw [prefers, decide_eq_true_iff, Score.lt_iff, gain, gain]
    omega

def better : Color → Score → Score → Score
  | white, s, t => s.max t
  | black, s, t => s.min t

theorem better_eq (c : Color) (s t : Score) : c.better s t = s ∨ c.better s t = t := by
  cases c
  · rw [better, Score.max]
    split <;> simp
  · rw [better, Score.min]
    split <;> simp

theorem gain_better (c : Color) (s t : Score) :
    c.gain (c.better s t) = max (c.gain s) (c.gain t) := by
  cases c
  · exact Score.val_max s t
  · have := Score.val_min s t
    simp only [gain, better]
    omega

/-- The greatest of some scores for White, the smallest for Black. -/
def optimum (c : Color) : List Score → Score
  | [] => Score.mated c
  | s :: rest => rest.foldl c.better s

/-- Comparing scores one by one finds one of them that none is better than. -/
theorem foldl_better (c : Color) (scores : List Score) (s : Score) :
    scores.foldl c.better s ∈ s :: scores ∧
      ∀ t ∈ s :: scores, c.gain t ≤ c.gain (scores.foldl c.better s) := by
  induction scores generalizing s with
  | nil => simp
  | cons u rest ih =>
    obtain ⟨mem, le⟩ := ih (c.better s u)
    have first := le _ List.mem_cons_self
    rw [gain_better] at first
    rw [List.foldl_cons]
    constructor
    · rcases List.mem_cons.1 mem with h | h
      · rw [h]
        rcases c.better_eq s u with h | h <;> simp [h]
      · simp [h]
    · intro t ht
      rcases List.mem_cons.1 ht with rfl | ht
      · omega
      · rcases List.mem_cons.1 ht with rfl | ht
        · omega
        · exact le t (List.mem_cons_of_mem _ ht)

/-- The best of some scores is one of them. -/
theorem optimum_mem {c : Color} {scores : List Score} (h : scores ≠ []) :
    c.optimum scores ∈ scores := by
  cases scores with
  | nil => exact absurd rfl h
  | cons s rest => exact (c.foldl_better rest s).1

/-- No score is better than the best one. -/
theorem gain_le_optimum {c : Color} {scores : List Score} {s : Score} (h : s ∈ scores) :
    c.gain s ≤ c.gain (c.optimum scores) := by
  cases scores with
  | nil => cases h
  | cons t rest => exact (c.foldl_better rest t).2 s h

end Color

namespace Position

/-- Without a king or a legal move the score is settled, else `goOn` says what the moves lead to. -/
def settle (w : Weights) (p : Position) (goOn : List Move → Except Failure Score) :
    Except Failure Score := do
  if (p.king? p.toMove).isNone then return ← p.evaluate w
  match ← p.legalMoves with
  | [] => return ← p.terminalScore
  | moves => goOn moves

/-- The score of a position to a depth, by all sequences of legal moves. -/
def minimax (w : Weights) : (depth : Nat) → Position → Except Failure Score
  | 0, p => p.settle w fun _ => do return ← p.evaluate w
  | depth + 1, p => p.settle w fun moves => do
    return p.toMove.optimum (← moves.mapM fun m => do minimax w depth (← p.play m))

def minimaxAfter (w : Weights) (depth : Nat) (p : Position) (m : Move) : Except Failure Score := do
  minimax w depth (← p.play m)

variable {w : Weights} {p : Position} {depth : Nat} {s : Score}
  {goOn : List Move → Except Failure Score}

/-- How a settled score comes about. -/
inductive Settled (w : Weights) (p : Position) (goOn : List Move → Except Failure Score)
    (s : Score) : Prop where
  | noKing (king : p.king? p.toMove = none) (score : p.evaluate w = .ok s)
  | noMoves (king : p.king? p.toMove ≠ none) (moves : p.legalMoves = .ok [])
      (score : p.terminalScore = .ok s)
  | moves {m rest} (king : p.king? p.toMove ≠ none) (moves : p.legalMoves = .ok (m :: rest))
      (score : goOn (m :: rest) = .ok s)

theorem settled_of_settle (h : p.settle w goOn = .ok s) : p.Settled w goOn s := by
  rw [settle] at h
  cases king : p.king? p.toMove with
  | none =>
    simp only [king, Option.isNone_none, if_true] at h
    exact .noKing king (Failure.liftM_fault_eq_ok_iff.1 h)
  | some k =>
    simp only [king, Option.isNone_some, Bool.false_eq_true, if_false] at h
    obtain ⟨list, moves, h⟩ := bind_eq_ok_iff.1 h
    have there : p.king? p.toMove ≠ none := by simp [king]
    cases list with
    | nil => exact .noMoves there moves (Failure.liftM_fault_eq_ok_iff.1 h)
    | cons m rest => exact .moves there moves h

/-- With moves to play, the score is the best of those after them. -/
theorem minimax_of_moves {m : Move} {rest : List Move} (king : p.king? p.toMove ≠ none)
    (moves : p.legalMoves = .ok (m :: rest)) : p.minimax w (depth + 1) =
      do return p.toMove.optimum (← (m :: rest).mapM (p.minimaxAfter w depth)) := by
  obtain ⟨k, hk⟩ := Option.ne_none_iff_exists'.1 king
  rw [minimax, settle, hk, moves]
  rfl

theorem minimax_of_no_moves (king : p.king? p.toMove ≠ none) (moves : p.legalMoves = .ok [])
    (score : p.terminalScore = .ok s) : p.minimax w depth = .ok s := by
  obtain ⟨k, hk⟩ := Option.ne_none_iff_exists'.1 king
  cases depth <;> rw [minimax, settle, hk, moves, score] <;> rfl

theorem minimax_zero_of_moves {m : Move} {rest : List Move} (king : p.king? p.toMove ≠ none)
    (moves : p.legalMoves = .ok (m :: rest)) (score : p.evaluate w = .ok s) :
    p.minimax w 0 = .ok s := by
  obtain ⟨k, hk⟩ := Option.ne_none_iff_exists'.1 king
  rw [minimax, settle, hk, moves, score]
  rfl

theorem minimaxAfter_eq_ok_iff {m : Move} : p.minimaxAfter w depth m = .ok s ↔
    ∃ q, p.play m = .ok q ∧ q.minimax w depth = .ok s := by
  simp only [minimaxAfter, bind_eq_ok_iff, Failure.liftM_overflow_eq_ok_iff]

/-- Where each of a list of computations succeeds, it pairs with its result. -/
theorem exists_lines {α β ε : Type} {f : α → Except ε β} {xs : List α} {ys : List β}
    (h : xs.mapM f = .ok ys) : ∃ lines : List (α × β), lines.map Prod.fst = xs ∧
      lines.map Prod.snd = ys ∧ ∀ line ∈ lines, f line.1 = .ok line.2 := by
  induction xs generalizing ys with
  | nil =>
    cases h
    exact ⟨[], rfl, rfl, nofun⟩
  | cons x rest ih =>
    rw [List.mapM_cons] at h
    obtain ⟨y, hy, h⟩ := bind_eq_ok_iff.1 h
    obtain ⟨zs, hzs, h⟩ := bind_eq_ok_iff.1 h
    obtain ⟨lines, rfl, rfl, all⟩ := ih hzs
    cases h
    exact ⟨(x, y) :: lines, rfl, rfl, List.forall_mem_cons.2 ⟨hy, all⟩⟩

/-- Computations that all succeed do so in a row. -/
theorem exists_mapM_eq_ok {α β ε : Type} {f : α → Except ε β} {xs : List α}
    (h : ∀ x ∈ xs, ∃ y, f x = .ok y) : ∃ ys, xs.mapM f = .ok ys := by
  induction xs with
  | nil => exact ⟨[], rfl⟩
  | cons x rest ih =>
    obtain ⟨y, hy⟩ := h x List.mem_cons_self
    obtain ⟨ys, hys⟩ := ih fun z hz => h z (List.mem_cons_of_mem x hz)
    exact ⟨y :: ys, by rw [List.mapM_cons, hy, hys]; rfl⟩

/-- The lines pair moves with the scores after them, of which `s` is the best. -/
structure Scored (w : Weights) (p : Position) (depth : Nat) (moves : List Move) (s : Score)
    (lines : List (Move × Score)) : Prop where
  moves : lines.map Prod.fst = moves
  after : ∀ line ∈ lines, p.minimaxAfter w depth line.1 = .ok line.2
  bound : ∀ line ∈ lines, p.toMove.gain line.2 ≤ p.toMove.gain s
  attained : ∃ m, (m, s) ∈ lines

/-- A position with moves has the best of the scores after them. -/
theorem exists_scored {m : Move} {rest : List Move}
    (h : (do return p.toMove.optimum (← (m :: rest).mapM (p.minimaxAfter w depth))) = .ok s) :
    ∃ lines, p.Scored w depth (m :: rest) s lines := by
  obtain ⟨scores, found, best⟩ := bind_eq_ok_iff.1 h
  obtain ⟨lines, moves, rfl, all⟩ := exists_lines found
  obtain rfl := Except.ok.inj best
  have nonempty : lines.map Prod.snd ≠ [] := by
    intro none
    rw [List.map_eq_nil_iff.1 none] at moves
    cases moves
  obtain ⟨⟨n, t⟩, mem, ht⟩ := List.mem_map.1 (Color.optimum_mem (c := p.toMove) nonempty)
  refine ⟨lines, moves, all, fun line hl => ?_, n, ht ▸ mem⟩
  exact Color.gain_le_optimum (List.mem_map_of_mem hl)

/-- If there is a score after every move, there is a best one. -/
theorem exists_minimax_of_moves {m : Move} {rest : List Move} (king : p.king? p.toMove ≠ none)
    (moves : p.legalMoves = .ok (m :: rest))
    (after : ∀ k ∈ m :: rest, ∃ s, p.minimaxAfter w depth k = .ok s) :
    ∃ s lines, p.minimax w (depth + 1) = .ok s ∧ p.Scored w depth (m :: rest) s lines := by
  obtain ⟨scores, found⟩ := exists_mapM_eq_ok after
  have best : (do return p.toMove.optimum (← (m :: rest).mapM (p.minimaxAfter w depth))) =
      .ok (p.toMove.optimum scores) := by
    rw [found]
    rfl
  obtain ⟨lines, scored⟩ := exists_scored best
  exact ⟨_, lines, (minimax_of_moves king moves).trans best, scored⟩

/-! ## The range of scores -/

theorem gain_inRange (c : Color) (h : s.InRange) :
    -Score.bound ≤ c.gain s ∧ c.gain s ≤ Score.bound := by
  obtain ⟨lo, hi⟩ := h
  rw [Score.le_iff, Score.val_negInf] at lo
  rw [Score.le_iff, Score.val_inf] at hi
  cases c <;> simp only [Color.gain] <;> omega

/-- Evaluations lie between the scores of the two checkmates. -/
theorem evaluate_inRange (h : p.evaluate w = .ok s) : s.InRange := by
  rw [evaluate] at h
  obtain ⟨program, -, h⟩ := bind_eq_ok_iff.1 h
  obtain ⟨tokens, -, h⟩ := bind_eq_ok_iff.1 h
  split at h
  · split at h
    · obtain rfl := Except.ok.inj h
      exact Score.inRange_clamped _
    · cases h
  · cases h

theorem terminalScore_inRange (h : p.terminalScore = .ok s) : s.InRange := by
  obtain ⟨check, -, h⟩ := bind_eq_ok_iff.1 h
  cases check <;> obtain rfl := Except.ok.inj h
  · decide
  · exact Score.inRange_mated _

/-- The score of a position lies between those of the two checkmates. -/
theorem minimax_inRange (h : p.minimax w depth = .ok s) : s.InRange := by
  induction depth generalizing p s with
  | zero =>
    cases settled_of_settle h with
    | noKing _ score => exact evaluate_inRange score
    | noMoves _ _ score => exact terminalScore_inRange score
    | moves _ _ score => exact evaluate_inRange (Failure.liftM_fault_eq_ok_iff.1 score)
  | succ depth ih =>
    cases settled_of_settle h with
    | noKing _ score => exact evaluate_inRange score
    | noMoves _ _ score => exact terminalScore_inRange score
    | moves _ _ score =>
      obtain ⟨lines, -, all, -, m, hm⟩ := exists_scored score
      obtain ⟨q, -, after⟩ := minimaxAfter_eq_ok_iff.1 (all _ hm)
      exact ih after

theorem Scored.inRange {moves : List Move} {lines : List (Move × Score)} {line : Move × Score}
    (scored : p.Scored w depth moves s lines) (mem : line ∈ lines) : line.2.InRange := by
  obtain ⟨q, -, after⟩ := minimaxAfter_eq_ok_iff.1 (scored.after line mem)
  exact minimax_inRange after

end Position

end ChessMachine
