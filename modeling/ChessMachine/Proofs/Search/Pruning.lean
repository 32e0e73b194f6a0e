import ChessMachine.Proofs.Search.Minimax

/-!
# Pruning changes nothing

A search within a window tells the score of a position if that lies in the window, and otherwise
on which side of it. White raises the lower end of the window with each move, Black lowers the
upper one; counted as the side to move counts, both raise a floor up to a ceiling.

## Main definitions

* `Bounds` — what a score found within a window tells of the real one.
* `Position.Progress.Tracks` — what is known while moves are tried.

## Main results

* `Position.Progress.Tracks.note` — one move more.
* `Position.exists_tryMoves` — what is known after all moves.
* `Position.foretells_alphaBeta` — every search within a window bounds the minimax score.
-/
namespace ChessMachine

/-- The score `v`, found within a window from `lo` to `hi`, bounds the score `t`. -/
structure Bounds (lo hi v t : Int) : Prop where
  low : v ≤ lo → t ≤ v
  high : hi ≤ v → v ≤ t
  exact : lo < v → v < hi → v = t

namespace Bounds

variable {lo hi v t : Int}

theorem refl (lo hi v : Int) : Bounds lo hi v v :=
  ⟨fun _ => Int.le_refl v, fun _ => Int.le_refl v, fun _ _ => rfl⟩

/-- The other side sees the window upside down. -/
theorem neg (h : Bounds lo hi v t) : Bounds (-hi) (-lo) (-v) (-t) := by
  obtain ⟨low, high, exact⟩ := h
  constructor <;> intros <;> omega

end Bounds

namespace Position

/-- The first of the lines that lead to the score `t` starts with `m`. -/
def IsFirst (lines : List (Move × Score)) (t : Score) (m : Move) : Prop :=
  ∃ before after, lines = before ++ (m, t) :: after ∧ ∀ line ∈ before, line.2 ≠ t

theorem IsFirst.append {lines : List (Move × Score)} {t : Score} {m : Move}
    (h : IsFirst lines t m) (more : List (Move × Score)) : IsFirst (lines ++ more) t m := by
  obtain ⟨before, after, rfl, others⟩ := h
  exact ⟨before, after ++ more, by simp, others⟩

theorem IsFirst.mem {lines : List (Move × Score)} {t : Score} {m : Move}
    (h : IsFirst lines t m) : (m, t) ∈ lines := by
  obtain ⟨before, after, rfl, -⟩ := h
  simp

/-- Only one member of a list is the first one with a property. -/
theorem eq_of_first {α : Type} {P : α → Prop} {a b : α} {before after before' after' : List α}
    (same : before ++ a :: after = before' ++ b :: after') (ha : P a) (hb : P b)
    (none : ∀ x ∈ before, ¬ P x) (none' : ∀ x ∈ before', ¬ P x) : a = b := by
  induction before generalizing before' with
  | nil =>
    cases before' with
    | nil => exact (List.cons.inj same).1
    | cons x rest =>
      obtain ⟨rfl, -⟩ := List.cons.inj same
      exact absurd ha (none' a List.mem_cons_self)
  | cons x rest ih =>
    cases before' with
    | nil =>
      obtain ⟨rfl, -⟩ := List.cons.inj same
      exact absurd hb (none x List.mem_cons_self)
    | cons y rest' =>
      exact ih (List.cons.inj same).2 (List.forall_mem_cons.1 none).2
        (List.forall_mem_cons.1 none').2

/-- Only one move is the first one that leads to a score. -/
theorem IsFirst.eq {lines : List (Move × Score)} {t : Score} {m n : Move}
    (h : IsFirst lines t m) (other : IsFirst lines t n) : m = n := by
  obtain ⟨before, after, rfl, earlier⟩ := h
  obtain ⟨before', after', same, earlier'⟩ := other
  have sameLine : (m, t) = (n, t) :=
    eq_of_first (P := fun line => line.2 = t) same rfl rfl earlier earlier'
  exact congrArg Prod.fst sameLine

/-! ## One more move -/

namespace Progress

/-- The better end of the window for a colour, as it counts, which its moves raise. -/
def floor (r : Progress) : Color → Int
  | .white => r.alpha.val
  | .black => -r.beta.val

/-- The end of the window that closes it. -/
def ceiling (r : Progress) : Color → Int
  | .white => r.beta.val
  | .black => -r.alpha.val

variable {r : Progress} {c : Color} {m : Move} {child : SearchResult}

theorem beta_le_alpha_iff (c : Color) : r.beta ≤ r.alpha ↔ r.ceiling c ≤ r.floor c := by
  rw [Score.le_iff]
  cases c with
  | white => exact Iff.rfl
  | black =>
    rw [ceiling, floor]
    omega

/-- A better score is taken over, with its move. -/
theorem note_of_lt (h : c.gain r.result.score < c.gain child.score) :
    (r.note c m child).result.score = child.score ∧
      (r.note c m child).result.best = some m := by
  have better : c.prefers child.score r.result.score = true := Color.prefers_iff.2 h
  cases c <;> simp [note, better]

/-- A score that is no better leaves the score and the move as they were. -/
theorem note_of_le (h : c.gain child.score ≤ c.gain r.result.score) :
    (r.note c m child).result.score = r.result.score ∧
      (r.note c m child).result.best = r.result.best := by
  have worse : ¬ c.prefers child.score r.result.score = true :=
    mt Color.prefers_iff.1 (by omega)
  cases c <;> simp [note, worse]

/-- The better end of the window rises to the best score so far. -/
theorem floor_note (r : Progress) (c : Color) (m : Move) (child : SearchResult) :
    (r.note c m child).floor c
      = max (r.floor c) (c.gain (r.note c m child).result.score) := by
  cases c
  · exact Score.val_max _ _
  · have := Score.val_min r.beta (r.note .black m child).result.score
    have kept : (r.note .black m child).beta
        = r.beta.min (r.note .black m child).result.score := rfl
    simp only [floor, kept, Color.gain]
    omega

theorem ceiling_note (r : Progress) (c : Color) (m : Move) (child : SearchResult) :
    (r.note c m child).ceiling c = r.ceiling c := by
  cases c <;> rfl

/-- Nothing is worse than to be mated, and no move is remembered for being no better. -/
structure AtLeastMated (c : Color) (r : SearchResult) : Prop where
  worst : c.gain (Score.mated c) ≤ c.gain r.score
  lost : r.score = Score.mated c → r.best = none

theorem AtLeastMated.note (h : AtLeastMated c r.result) :
    AtLeastMated c (r.note c m child).result := by
  obtain ⟨worst, lost⟩ := h
  by_cases better : c.gain r.result.score < c.gain child.score
  · obtain ⟨score, -⟩ := note_of_lt (m := m) better
    rw [← score] at better
    refine ⟨by omega, fun mated => ?_⟩
    rw [mated] at better
    omega
  · obtain ⟨score, best⟩ := note_of_le (m := m) (Int.not_lt.1 better)
    refine ⟨by rwa [score], fun mated => ?_⟩
    rw [best]
    exact lost (score.symm.trans mated)

/-- What is known after some lines, as long as the window from `lo` to `hi` is open. -/
structure Tracks (c : Color) (lo hi : Int) (lines : List (Move × Score)) (r : Progress) : Prop where
  floor : r.floor c = max lo (c.gain r.result.score)
  ceiling : r.ceiling c = hi
  isOpen : r.floor c < hi
  bound : ∀ line ∈ lines, c.gain line.2 ≤ c.gain r.result.score
  first : lo < c.gain r.result.score →
    ∃ m, r.result.best = some m ∧ IsFirst lines r.result.score m
  atLeast : AtLeastMated c r.result

/-- What is known after all lines, if `t` is the best of their scores. -/
structure Answers (c : Color) (lo hi : Int) (lines : List (Move × Score)) (t : Score)
    (r : SearchResult) : Prop where
  score : Bounds lo hi (c.gain r.score) (c.gain t)
  first : lo < c.gain r.score → r.score = t → ∃ m, r.best = some m ∧ IsFirst lines t m
  atLeast : AtLeastMated c r

namespace Tracks

variable {lo hi : Int} {lines rest : List (Move × Score)} {s t : Score}

/-- A move that is better than all before is the first one with its score. -/
theorem isFirst (tracks : r.Tracks c lo hi lines) (better : c.gain r.result.score < c.gain t)
    (rest : List (Move × Score)) : IsFirst (lines ++ (m, t) :: rest) t m := by
  refine ⟨lines, rest, rfl, fun line hl same => ?_⟩
  have := tracks.bound line hl
  rw [same] at this
  omega

/-- One more move that leaves the window open. -/
theorem note (tracks : r.Tracks c lo hi lines)
    (bounds : Bounds (r.floor c) hi (c.gain child.score) (c.gain t))
    (isOpen : (r.note c m child).floor c < hi) :
    (r.note c m child).Tracks c lo hi (lines ++ [(m, t)]) := by
  obtain ⟨low, -, exact⟩ := bounds
  have floor := tracks.floor
  have raised := r.floor_note c m child
  have ceiling := (r.ceiling_note c m child).trans tracks.ceiling
  by_cases better : c.gain r.result.score < c.gain child.score
  · obtain ⟨score, best⟩ := note_of_lt (m := m) better
    rw [score] at raised
    refine ⟨by rw [score]; omega, ceiling, isOpen, ?_, ?_, tracks.atLeast.note⟩
    · rw [score, List.forall_mem_append, List.forall_mem_singleton]
      refine ⟨fun line hl => ?_, show c.gain t ≤ _ by omega⟩
      have := tracks.bound line hl
      omega
    · rw [score, best]
      intro above
      obtain rfl : child.score = t := Color.gain_inj.1 (exact (by omega) (by omega))
      exact ⟨m, rfl, tracks.isFirst better []⟩
  · obtain ⟨score, best⟩ := note_of_le (m := m) (Int.not_lt.1 better)
    rw [score] at raised
    refine ⟨by rw [score]; omega, ceiling, isOpen, ?_, ?_, tracks.atLeast.note⟩
    · rw [score, List.forall_mem_append, List.forall_mem_singleton]
      exact ⟨tracks.bound, show c.gain t ≤ _ by omega⟩
    · rw [score, best]
      intro above
      obtain ⟨n, hn, first⟩ := tracks.first above
      exact ⟨n, hn, first.append _⟩

/-- One more move that closes the window: it is at least as good as the ceiling, and nothing after
it matters. -/
theorem answers_of_closed (tracks : r.Tracks c lo hi lines)
    (bounds : Bounds (r.floor c) hi (c.gain child.score) (c.gain t))
    (closed : hi ≤ (r.note c m child).floor c)
    (best : c.gain t ≤ c.gain s) :
    Answers c lo hi (lines ++ (m, t) :: rest) s (r.note c m child).result := by
  obtain ⟨-, high, -⟩ := bounds
  have floor := tracks.floor
  have isOpen := tracks.isOpen
  have raised := r.floor_note c m child
  have better : c.gain r.result.score < c.gain child.score := by
    refine Int.not_le.1 fun le => ?_
    rw [(note_of_le le).1] at raised
    omega
  obtain ⟨score, move⟩ := note_of_lt (m := m) better
  rw [score] at raised
  refine ⟨?_, ?_, tracks.atLeast.note⟩
  · rw [score]
    constructor <;> intros <;> omega
  · rw [score, move]
    rintro - rfl
    have reached := high (by omega)
    obtain rfl : child.score = t := Color.gain_inj.1 (Int.le_antisymm reached best)
    exact ⟨m, rfl, tracks.isFirst better rest⟩

/-- All moves are tried. -/
theorem answers (tracks : r.Tracks c lo hi lines)
    (bound : ∀ line ∈ lines, c.gain line.2 ≤ c.gain s) (attained : ∃ m, (m, s) ∈ lines) :
    Answers c lo hi lines s r.result := by
  obtain ⟨n, hn⟩ := attained
  have le := tracks.bound _ hn
  have floor := tracks.floor
  have isOpen := tracks.isOpen
  refine ⟨⟨fun _ => le, fun _ => by omega, fun above _ => ?_⟩, fun above same => ?_,
    tracks.atLeast⟩
  · obtain ⟨m, -, before, after, rfl, -⟩ := tracks.first above
    have := bound (m, r.result.score) (by simp)
    simp only at this le
    omega
  · obtain ⟨m, hm, first⟩ := tracks.first above
    exact ⟨m, hm, same ▸ first⟩

end Tracks

end Progress

/-! ## All moves -/

/-- A window that has room between the scores of the two checkmates. -/
structure Window (alpha beta : Score) : Prop where
  lo : Score.negInf ≤ alpha
  hi : beta ≤ Score.inf
  lt : alpha < beta

/-- In every window, the search bounds the score. -/
def Foretells (search : Score → Score → Except Failure SearchResult) (t : Score) : Prop :=
  ∀ alpha beta, Window alpha beta →
    ∃ r, search alpha beta = .ok r ∧ Bounds alpha.val beta.val r.score.val t.val

namespace Progress

variable {r : Progress} {c : Color} {lo hi : Int} {lines : List (Move × Score)}

theorem bounds_gain_iff {v t : Score} (c : Color) :
    Bounds (r.floor c) (r.ceiling c) (c.gain v) (c.gain t) ↔
      Bounds r.alpha.val r.beta.val v.val t.val := by
  cases c
  · exact Iff.rfl
  · exact ⟨fun h => by simpa [floor, ceiling, Color.gain] using h.neg, Bounds.neg⟩

/-- What is left of a window with room has room. -/
theorem Tracks.window (tracks : r.Tracks c lo hi lines) (lo_ge : -Score.bound ≤ lo)
    (hi_le : hi ≤ Score.bound) : Window r.alpha r.beta := by
  have floor := tracks.floor
  have ceiling := tracks.ceiling
  have isOpen := tracks.isOpen
  cases c <;> simp only [Progress.floor, Progress.ceiling] at floor ceiling isOpen
  all_goals
    constructor <;> simp only [Score.le_iff, Score.lt_iff, Score.val_inf, Score.val_negInf] <;>
      omega

end Progress

section

variable {p : Position} {child : Position → Score → Score → Except Failure SearchResult}

theorem tryMoves_cons {q : Position} {r : Progress} {m : Move} {rest : List Move}
    {found : SearchResult} (played : p.play m = .ok q)
    (search : child q r.alpha r.beta = .ok found) :
    p.tryMoves child r (m :: rest) =
      if (r.note p.toMove m found).beta ≤ (r.note p.toMove m found).alpha then
        .ok (r.note p.toMove m found).result
      else p.tryMoves child (r.note p.toMove m found) rest := by
  rw [tryMoves, played]
  show (child q r.alpha r.beta >>= _) = _
  rw [search]
  rfl

variable {lo hi : Int} {s : Score} (lo_ge : -Score.bound ≤ lo) (hi_le : hi ≤ Score.bound)
include lo_ge hi_le

/-- Trying further moves answers for all lines, whether or not the window closes. -/
theorem exists_tryMoves {r : Progress} {lines rest : List (Move × Score)}
    (tracks : r.Tracks p.toMove lo hi lines)
    (foresees : ∀ line ∈ rest, ∃ q, p.play line.1 = .ok q ∧ Foretells (child q) line.2)
    (bound : ∀ line ∈ lines ++ rest, p.toMove.gain line.2 ≤ p.toMove.gain s)
    (attained : ∃ m, (m, s) ∈ lines ++ rest) :
    ∃ result, p.tryMoves child r (rest.map Prod.fst) = .ok result ∧
      Progress.Answers p.toMove lo hi (lines ++ rest) s result := by
  induction rest generalizing r lines with
  | nil =>
    rw [List.append_nil] at bound attained ⊢
    exact ⟨_, rfl, tracks.answers bound attained⟩
  | cons line rest ih =>
    obtain ⟨q, played, search⟩ := foresees line List.mem_cons_self
    obtain ⟨found, hfound, bounds⟩ := search _ _ (tracks.window lo_ge hi_le)
    rw [← Progress.bounds_gain_iff p.toMove, tracks.ceiling] at bounds
    have ceiling := (r.ceiling_note p.toMove line.1 found).trans tracks.ceiling
    rw [List.map_cons, tryMoves_cons played hfound]
    by_cases closed : (r.note p.toMove line.1 found).beta ≤ (r.note p.toMove line.1 found).alpha
    · rw [if_pos closed]
      rw [Progress.beta_le_alpha_iff p.toMove, ceiling] at closed
      exact ⟨_, rfl, tracks.answers_of_closed bounds closed (bound line (by simp))⟩
    · rw [if_neg closed]
      rw [Progress.beta_le_alpha_iff p.toMove, ceiling, Int.not_le] at closed
      rw [List.append_cons] at bound attained ⊢
      exact ih (tracks.note bounds closed)
        (fun line hl => foresees line (List.mem_cons_of_mem _ hl)) bound attained

end

/-! ## All depths -/

def Progress.start (c : Color) (alpha beta : Score) : Progress :=
  { result := leaf (Score.mated c), alpha, beta }

theorem Progress.floor_start {alpha beta : Score} (c : Color) (window : Window alpha beta) :
    -Score.bound ≤ (start c alpha beta).floor c ∧
      (start c alpha beta).floor c < (start c alpha beta).ceiling c ∧
      (start c alpha beta).ceiling c ≤ Score.bound := by
  obtain ⟨lo, hi, lt⟩ := window
  rw [Score.le_iff, Score.val_negInf] at lo
  rw [Score.le_iff, Score.val_inf] at hi
  rw [Score.lt_iff] at lt
  cases c <;> simp only [start, floor, ceiling] <;> omega

/-- Before the first move there is nothing to know. -/
theorem Progress.tracks_start {alpha beta : Score} (c : Color) (window : Window alpha beta) :
    (start c alpha beta).Tracks c ((start c alpha beta).floor c) ((start c alpha beta).ceiling c)
      [] := by
  obtain ⟨lo_ge, isOpen, -⟩ := floor_start c window
  have mated : c.gain (Score.mated c) = -Score.bound := c.gain_mated
  have score : c.gain (start c alpha beta).result.score = -Score.bound := mated
  refine ⟨by omega, rfl, isOpen, by simp, fun above => ?_, by omega, fun _ => rfl⟩
  omega

variable {w : Weights} {p : Position} {depth : Nat} {s : Score} {alpha beta : Score}

theorem examine_of_no_king {goOn : List Move → Except Failure SearchResult}
    (king : p.king? p.toMove = none) (score : p.evaluate w = .ok s) :
    p.examine w goOn = .ok (leaf s) := by
  rw [examine, king, score]
  rfl

theorem examine_of_no_moves {goOn : List Move → Except Failure SearchResult}
    (king : p.king? p.toMove ≠ none) (moves : p.legalMoves = .ok [])
    (score : p.terminalScore = .ok s) : p.examine w goOn = .ok (leaf s) := by
  obtain ⟨k, hk⟩ := Option.ne_none_iff_exists'.1 king
  rw [examine, hk, moves, score]
  rfl

theorem examine_of_moves {goOn : List Move → Except Failure SearchResult} {m : Move}
    {rest : List Move} (king : p.king? p.toMove ≠ none) (moves : p.legalMoves = .ok (m :: rest)) :
    p.examine w goOn = goOn (m :: rest) := by
  obtain ⟨k, hk⟩ := Option.ne_none_iff_exists'.1 king
  rw [examine, hk, moves]
  rfl

/-- The search of a position with moves, if every search below foretells the minimax score. -/
theorem exists_alphaBeta_of_moves {m : Move} {rest : List Move} {lines : List (Move × Score)}
    (king : p.king? p.toMove ≠ none) (moves : p.legalMoves = .ok (m :: rest))
    (scored : p.Scored w depth (m :: rest) s lines)
    (below : ∀ {q : Position} {t : Score}, q.minimax w depth = .ok t →
      Foretells (q.alphaBeta w depth) t)
    (window : Window alpha beta) :
    ∃ r, p.alphaBeta w (depth + 1) alpha beta = .ok r ∧
      Progress.Answers p.toMove ((Progress.start p.toMove alpha beta).floor p.toMove)
        ((Progress.start p.toMove alpha beta).ceiling p.toMove) lines s r := by
  obtain ⟨lo_ge, -, hi_le⟩ := Progress.floor_start p.toMove window
  have foresees : ∀ line ∈ lines,
      ∃ q, p.play line.1 = .ok q ∧ Foretells (q.alphaBeta w depth) line.2 := by
    intro line hl
    obtain ⟨q, played, after⟩ := minimaxAfter_eq_ok_iff.1 (scored.after line hl)
    exact ⟨q, played, below after⟩
  obtain ⟨r, tried, answers⟩ := exists_tryMoves lo_ge hi_le
    (Progress.tracks_start p.toMove window) foresees scored.bound scored.attained
  rw [scored.moves] at tried
  exact ⟨r, (examine_of_moves king moves).trans tried, answers⟩

/-- Every search within a window bounds the minimax score. -/
theorem foretells_alphaBeta (h : p.minimax w depth = .ok s) :
    Foretells (p.alphaBeta w depth) s := by
  intro alpha beta window
  induction depth generalizing p s alpha beta with
  | zero =>
    cases settled_of_settle h with
    | noKing king score => exact ⟨_, examine_of_no_king king score, .refl ..⟩
    | noMoves king moves score => exact ⟨_, examine_of_no_moves king moves score, .refl ..⟩
    | moves king moves score =>
      replace score := Failure.liftM_fault_eq_ok_iff.1 score
      refine ⟨leaf s, (examine_of_moves king moves).trans ?_, .refl ..⟩
      rw [score]
      rfl
  | succ depth ih =>
    cases settled_of_settle h with
    | noKing king score => exact ⟨_, examine_of_no_king king score, .refl ..⟩
    | noMoves king moves score => exact ⟨_, examine_of_no_moves king moves score, .refl ..⟩
    | moves king moves score =>
      obtain ⟨lines, scored⟩ := exists_scored score
      obtain ⟨r, search, answers⟩ := exists_alphaBeta_of_moves king moves scored ih window
      exact ⟨r, search, (Progress.bounds_gain_iff p.toMove).1 answers.score⟩

end Position

end ChessMachine
