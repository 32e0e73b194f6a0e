import ChessMachine.Proofs.Board.Playing
import ChessMachine.Proofs.Board.Squares

/-!
# The number of pieces

A move carries one piece. It may take others off the board, and brings none onto it.

## Main definitions

* `Board.tally`, `Board.men`, `Board.count` — the number of pieces of some colours, of one colour
  and of both.

## Main results

* `Board.tally_add_countP`, `Board.count_set` — how these numbers change.
* `Position.count_boardAfter_le` — a move never adds a piece.
-/
namespace ChessMachine

namespace Board

/-- A piece of a colour that is counted stands there. -/
def holds (counts : Color → Bool) (content : Option Piece) : Bool :=
  content.any fun piece => counts piece.color

@[simp] theorem holds_none (counts : Color → Bool) : holds counts none = false := rfl

@[simp] theorem holds_some (counts : Color → Bool) (piece : Piece) :
    holds counts (some piece) = counts piece.color := rfl

def tally (counts : Color → Bool) (b : Board) : Nat :=
  Square.all.countP fun s => holds counts (b.piece? s)

def count (b : Board) : Nat := Square.all.countP fun s => (b.piece? s).isSome

def men (c : Color) (b : Board) : Nat := b.tally (· = c)

variable {b b' : Board} {s : Square}

/-- Boards differ in number by the squares on which they differ. -/
theorem tally_add_countP (counts : Color → Bool) {squares : List Square} (nodup : squares.Nodup)
    (same : ∀ t, t ∉ squares → b.piece? t = b'.piece? t) :
    b.tally counts + squares.countP (fun t => holds counts (b'.piece? t))
      = b'.tally counts + squares.countP fun t => holds counts (b.piece? t) := by
  have listed : (Square.all.filter (· ∈ squares)).Perm squares :=
    (List.perm_ext_iff_of_nodup (Square.nodup_all.filter _) nodup).2 fun t => by simp [t.mem_all]
  have parts (test : Square → Bool) : Square.all.countP test
      = squares.countP test + (Square.all.filter (· ∉ squares)).countP test := by
    rw [List.countP_eq_countP_filter_add Square.all test (· ∈ squares), listed.countP_eq]
    simp only [decide_not]
  have others : (Square.all.filter (· ∉ squares)).countP (fun t => holds counts (b.piece? t))
      = (Square.all.filter (· ∉ squares)).countP fun t => holds counts (b'.piece? t) := by
    refine List.countP_congr fun t ht => ?_
    rw [same t (of_decide_eq_true (List.mem_filter.1 ht).2)]
  rw [tally, tally, parts, parts, others]
  omega

theorem count_eq_tally (b : Board) : b.count = b.tally fun _ => true :=
  List.countP_congr fun t _ => by cases b.piece? t <;> simp

/-- New contents are counted instead of the old. -/
theorem count_set (b : Board) (s : Square) (content : Option Piece) :
    (b.set s content).count + (b.piece? s).isSome.toNat = b.count + content.isSome.toNat := by
  have others (t : Square) (ht : t ∉ [s]) : (b.set s content).piece? t = b.piece? t := by
    rw [piece?_set, if_neg fun same => ht (List.mem_singleton.2 same)]
  have changed := tally_add_countP (fun _ => true) (List.pairwise_singleton _ s) others
  have one (content : Option Piece) : (if holds (fun _ => true) content then 1 else 0)
      = content.isSome.toNat := by cases content <;> rfl
  rw [count_eq_tally, count_eq_tally]
  simpa only [List.countP_cons, List.countP_nil, Nat.zero_add, one, piece?_set, if_true]
    using changed

theorem count_clear (b : Board) (s : Square) :
    (b.clear s).count + (b.piece? s).isSome.toNat = b.count := b.count_set s none

theorem count_place (b : Board) (p : Piece) (s : Square) :
    (b.place p s).count + (b.piece? s).isSome.toNat = b.count + 1 := b.count_set s (some p)

theorem count_clear_le (b : Board) (s : Square) : (b.clear s).count ≤ b.count := by
  have := b.count_clear s
  omega

theorem count_place_le (b : Board) (p : Piece) (s : Square) :
    (b.place p s).count ≤ b.count + 1 := by
  have := b.count_place p s
  omega

theorem count_empty_le (n : Nat) : empty.count ≤ n := by simp [count]

/-- A board that is set up with `n` pieces holds no more. -/
theorem count_place_le_succ {n : Nat} {p : Piece} (few : b.count ≤ n) :
    (b.place p s).count ≤ n + 1 :=
  Nat.le_trans (b.count_place_le p s) (Nat.succ_le_succ few)

/-- Clearing an occupied square takes one piece from the board. -/
theorem count_clear_of_some {p : Piece} (here : b.piece? s = some p) :
    (b.clear s).count + 1 = b.count := by
  have := b.count_clear s
  rwa [here] at this

/-- Carrying a piece adds none, and may lose what stood on its destination. -/
theorem count_carry_le (b : Board) (src dst : Square) : (b.carry src dst).count ≤ b.count := by
  rw [carry]
  cases here : b.piece? src with
  | none => exact Nat.le_refl _
  | some p =>
    have := count_clear_of_some here
    have := (b.clear src).count_place_le p dst
    dsimp only
    omega

end Board

namespace Position

variable {p : Position} {m : Move} {piece : Piece}

/-- While its piece is in the air, a move leaves fewer pieces on the board. -/
theorem count_lifted_lt (here : p.piece? m.src = some piece) :
    (p.lifted m piece).count < p.board.count := by
  have left := Board.count_clear_of_some here
  rw [lifted]
  cases p.victim? m piece with
  | none =>
    dsimp only
    omega
  | some v =>
    have := (p.board.clear m.src).count_clear_le v
    dsimp only
    omega

/-- A move never adds a piece to the board. -/
theorem count_boardAfter_le (here : p.piece? m.src = some piece) :
    (p.boardAfter m piece).count ≤ p.board.count := by
  have lifted := count_lifted_lt here
  rw [boardAfter]
  cases castlingWing? m piece with
  | none => exact Nat.le_trans (Board.count_place_le ..) lifted
  | some w =>
    have carried := (p.lifted m piece).count_carry_le ⟨w.rookFile, m.src.rank⟩
      ⟨w.rookTarget, m.src.rank⟩
    exact Nat.le_trans (Board.count_place_le ..) (Nat.lt_of_le_of_lt carried lifted)

end Position

end ChessMachine
