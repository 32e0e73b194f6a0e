import ChessMachine.Board.Position
import ChessMachine.Proofs.Rules.Geometry
import ChessMachine.Rules.PseudoLegal

/-!
# Lines of sight

A piece that slides sees along a line over empty squares, up to and including the first occupied
one. Sight goes both ways: what a piece sees, it is seen from.

## Main definitions

* `Direction.reverse` — the way back.
* `Square.along` — the square some steps away.
* `Position.Sees` — every square strictly between the ends of a line is empty.
* `Position.OpenLine` — a line by files and ranks, with no piece between its ends.

## Main results

* `Direction.mem_pawn_iff`, `Direction.mem_knight_iff`, `Direction.mem_royal_iff` — the directions
  of the pieces, by files and ranks.
* `Square.along_eq_some_iff` — the square some steps away, by files and ranks.
* `Position.Sees.reverse` — the line seen from its other end.
* `Position.openLine_iff` — lines are open whose ends see each other.
* `Position.mem_reach_ray` — what a piece reaches along a ray.
-/
namespace ChessMachine

namespace Direction

def reverse (d : Direction) : Direction := ⟨-d.files, -d.ranks⟩

@[simp] theorem reverse_reverse (d : Direction) : d.reverse.reverse = d := by simp [reverse]

def Moves (d : Direction) : Prop := d.files ≠ 0 ∨ d.ranks ≠ 0

instance (d : Direction) : Decidable d.Moves := inferInstanceAs (Decidable (_ ∨ _))

/-! ### The directions of the pieces, by files and ranks -/

section Tables

variable {d : Direction} {c : Color}

/-- A pawn captures one file to either side, one rank ahead. -/
theorem mem_pawn_iff : d ∈ pawn c ↔ d.files.natAbs = 1 ∧ d.ranks = c.sign := by
  obtain ⟨files, ranks⟩ := d
  simp only [pawn, List.mem_cons, List.not_mem_nil, or_false, mk.injEq]
  omega

/-- A knight leaps two squares one way and one the other. -/
theorem mem_knight_iff : d ∈ knight ↔
    d.files.natAbs = 1 ∧ d.ranks.natAbs = 2 ∨ d.files.natAbs = 2 ∧ d.ranks.natAbs = 1 := by
  constructor
  · intro mem
    have all : ∀ d ∈ knight, d.files.natAbs = 1 ∧ d.ranks.natAbs = 2 ∨
        d.files.natAbs = 2 ∧ d.ranks.natAbs = 1 := by decide
    exact all d mem
  · obtain ⟨files, ranks⟩ := d
    simp only [Int.natAbs_eq_iff]
    rintro (⟨rfl | rfl, rfl | rfl⟩ | ⟨rfl | rfl, rfl | rfl⟩) <;> decide

theorem mem_straight_iff : d ∈ straight ↔ d.files.natAbs + d.ranks.natAbs = 1 := by
  obtain ⟨files, ranks⟩ := d
  simp only [straight, List.mem_cons, List.not_mem_nil, or_false, mk.injEq]
  omega

theorem mem_diagonal_iff : d ∈ diagonal ↔ d.files.natAbs = 1 ∧ d.ranks.natAbs = 1 := by
  obtain ⟨files, ranks⟩ := d
  simp only [diagonal, List.mem_cons, List.not_mem_nil, or_false, mk.injEq]
  omega

/-- A king goes one square in any direction. -/
theorem mem_royal_iff : d ∈ royal ↔ d.Moves ∧ d.files.natAbs ≤ 1 ∧ d.ranks.natAbs ≤ 1 := by
  rw [royal, List.mem_append, mem_straight_iff, mem_diagonal_iff, Moves]
  omega

end Tables

theorem moves_of_mem_royal : ∀ d ∈ royal, d.Moves := by decide

theorem reverse_mem_knight : ∀ d ∈ knight, d.reverse ∈ knight := by decide

theorem reverse_mem_straight : ∀ d ∈ straight, d.reverse ∈ straight := by decide

theorem reverse_mem_diagonal : ∀ d ∈ diagonal, d.reverse ∈ diagonal := by decide

theorem reverse_mem_royal : ∀ d ∈ royal, d.reverse ∈ royal := by decide

/-- A pawn attacks towards the side from which the other colour's pawns attack. -/
theorem reverse_mem_pawn (c : Color) : ∀ d ∈ pawn c, d.reverse ∈ pawn c.opponent := by
  cases c <;> decide

end Direction

namespace Square

variable {s t : Square} {d : Direction} {n : Nat}

/-- One step there is one step back. -/
theorem step_reverse : s.step d = some t ↔ t.step d.reverse = some s := by
  simp only [step_eq_some_iff, Direction.reverse]
  omega

/-- A king reaches the squares that touch its own. -/
theorem exists_royal_step_iff : (∃ d ∈ Direction.royal, s.step d = some t) ↔ s.Adjacent t := by
  rw [exists_mem_step_iff, Direction.mem_royal_iff, Adjacent, ne_iff]
  exact Iff.rfl

/-- The square `n` steps away, if the board reaches that far. -/
def along (s : Square) (d : Direction) : (n : Nat) → Option Square
  | 0 => some s
  | n + 1 => (s.step d).bind (·.along d n)

theorem along_one (s : Square) (d : Direction) : s.along d 1 = s.step d := by
  simp [along]

/-- Steps in one direction add up. -/
theorem along_add (s : Square) (d : Direction) (m n : Nat) :
    s.along d (m + n) = (s.along d m).bind (·.along d n) := by
  induction m generalizing s with
  | zero => rw [Nat.zero_add, along, Option.bind_some]
  | succ m ih =>
    rw [Nat.succ_add, along, along, Option.bind_assoc]
    simp only [ih]

theorem along_reverse (h : s.along d n = some t) : t.along d.reverse n = some s := by
  induction n generalizing s with
  | zero =>
    obtain rfl := Option.some.inj h
    rfl
  | succ n ih =>
    obtain ⟨u, first, further⟩ := Option.bind_eq_some_iff.1 h
    rw [along_add, ih further, Option.bind_some, along_one]
    exact step_reverse.1 first

/-- One step of many does not leave the board if the last one does not. -/
theorem inside_of_multiple {i j : Fin 8} {delta : Int}
    (h : (j.val : Int) = i.val + (n + 1 : Nat) * delta) :
    0 ≤ i.val + delta ∧ i.val + delta < 8 := by
  rw [Int.natCast_succ, Int.add_mul, Int.one_mul] at h
  rcases Int.le_total 0 delta with up | down
  · have := Int.mul_nonneg (Int.natCast_nonneg n) up
    omega
  · have := Int.mul_nonneg (Int.natCast_nonneg n) (Int.neg_nonneg_of_nonpos down)
    rw [Int.mul_neg] at this
    omega

theorem along_eq_some (h : s.along d n = some t) :
    (t.file.index.val : Int) = s.file.index.val + n * d.files ∧
      (t.rank.index.val : Int) = s.rank.index.val + n * d.ranks := by
  induction n generalizing s with
  | zero =>
    obtain rfl := Option.some.inj h
    simp
  | succ n ih =>
    obtain ⟨u, first, further⟩ := Option.bind_eq_some_iff.1 h
    obtain ⟨files, ranks⟩ := step_eq_some_iff.1 first
    obtain ⟨files', ranks'⟩ := ih further
    rw [files', ranks', files, ranks, Int.natCast_succ, Int.add_mul, Int.add_mul]
    omega

/-- The square some steps away, by files and ranks. As the board is convex, it is enough that the
last square is on it. -/
theorem along_eq_some_iff : s.along d n = some t ↔
    s.filesTo t = n * d.files ∧ s.ranksTo t = n * d.ranks := by
  unfold filesTo ranksTo
  constructor
  · intro h
    obtain ⟨files, ranks⟩ := along_eq_some h
    omega
  · rintro ⟨files, ranks⟩
    induction n generalizing s with
    | zero =>
      have same : ¬ s ≠ t := by
        rw [ne_iff, filesTo, ranksTo]
        omega
      exact congrArg some (Decidable.of_not_not same)
    | succ n ih =>
      have file : (t.file.index.val : Int) = s.file.index.val + (n + 1 : Nat) * d.files := by omega
      have rank : (t.rank.index.val : Int) = s.rank.index.val + (n + 1 : Nat) * d.ranks := by omega
      obtain ⟨u, fileOf, rankOf⟩ :=
        exists_of_coordinates (inside_of_multiple file) (inside_of_multiple rank)
      rw [Int.natCast_succ, Int.add_mul] at file rank
      refine Option.bind_eq_some_iff.2 ⟨u, step_eq_some_iff.2 ⟨fileOf, rankOf⟩, ih ?_ ?_⟩
      · omega
      · omega

/-- No line on the board has more than seven steps. -/
theorem le_seven_of_along (moves : d.Moves) (h : s.along d n = some t) : n ≤ 7 := by
  obtain ⟨files, ranks⟩ := along_eq_some h
  have bounded (x : Int) (nonzero : x ≠ 0) : n ≤ (n * x).natAbs := by
    rw [Int.natAbs_mul, Int.natAbs_natCast]
    exact Nat.le_mul_of_pos_right n (Int.natAbs_pos.2 nonzero)
  rcases moves with h | h
  · have := bounded _ h
    omega
  · have := bounded _ h
    omega

theorem getElem?_steps (s : Square) (d : Direction) (n i : Nat) :
    (s.steps d n)[i]? = if i < n then s.along d (i + 1) else none := by
  induction n generalizing s i with
  | zero => simp [steps]
  | succ n ih =>
    rw [steps, along]
    cases hs : s.step d with
    | none => simp
    | some u =>
      cases i with
      | zero => simp [along]
      | succ i => simp [ih]

/-- The squares of a ray in their order. -/
theorem getElem?_ray (moves : d.Moves) (i : Nat) : (s.ray d)[i]? = s.along d (i + 1) := by
  rw [ray, getElem?_steps]
  split
  · rfl
  · cases h : s.along d (i + 1) with
    | none => rfl
    | some t =>
      have := le_seven_of_along moves h
      omega

/-! ### Lines, by files and ranks -/

variable {u : Square}

/-- Squares of a rank or file are some straight steps apart. -/
theorem sharesRankOrFile_iff :
    s.SharesRankOrFile t ↔ ∃ d ∈ Direction.straight, ∃ n, s.along d (n + 1) = some t := by
  simp only [SharesRankOrFile, ne_iff, along_eq_some_iff, Direction.straight, List.mem_cons,
    List.not_mem_nil, or_false, exists_eq_or_imp, exists_eq_left]
  constructor
  · intro line
    have ways : s.filesTo t = 0 ∧ 0 < s.ranksTo t ∨ 0 < s.filesTo t ∧ s.ranksTo t = 0 ∨
        s.filesTo t = 0 ∧ s.ranksTo t < 0 ∨ s.filesTo t < 0 ∧ s.ranksTo t = 0 := by omega
    rcases ways with up | right | down | left
    · exact .inl ⟨(s.ranksTo t).natAbs - 1, by omega⟩
    · exact .inr (.inl ⟨(s.filesTo t).natAbs - 1, by omega⟩)
    · exact .inr (.inr (.inl ⟨(s.ranksTo t).natAbs - 1, by omega⟩))
    · exact .inr (.inr (.inr ⟨(s.filesTo t).natAbs - 1, by omega⟩))
  · rintro (⟨n, up⟩ | ⟨n, right⟩ | ⟨n, down⟩ | ⟨n, left⟩) <;> omega

/-- Squares of a diagonal are some diagonal steps apart. -/
theorem sharesDiagonal_iff :
    s.SharesDiagonal t ↔ ∃ d ∈ Direction.diagonal, ∃ n, s.along d (n + 1) = some t := by
  simp only [SharesDiagonal, ne_iff, along_eq_some_iff, Direction.diagonal, List.mem_cons,
    List.not_mem_nil, or_false, exists_eq_or_imp, exists_eq_left]
  constructor
  · intro line
    have ways : 0 < s.filesTo t ∧ s.ranksTo t = s.filesTo t ∨
        0 < s.filesTo t ∧ s.ranksTo t = -s.filesTo t ∨
        s.filesTo t < 0 ∧ s.ranksTo t = s.filesTo t ∨
        s.filesTo t < 0 ∧ s.ranksTo t = -s.filesTo t := by omega
    rcases ways with rising | falling | back | climbing
    · exact .inl ⟨(s.filesTo t).natAbs - 1, by omega⟩
    · exact .inr (.inl ⟨(s.filesTo t).natAbs - 1, by omega⟩)
    · exact .inr (.inr (.inl ⟨(s.filesTo t).natAbs - 1, by omega⟩))
    · exact .inr (.inr (.inr ⟨(s.filesTo t).natAbs - 1, by omega⟩))
  · rintro (⟨n, rising⟩ | ⟨n, falling⟩ | ⟨n, back⟩ | ⟨n, climbing⟩) <;> omega

/-- In one coordinate, of `m` units, what comes first is some of these units if the rest lies on the
same side. -/
theorem sameSide_iff {a b x : Int} {m : Nat} (unit : x.natAbs ≤ 1) (sum : a + b = m * x) :
    (0 ≤ a ∧ 0 ≤ b ∨ a ≤ 0 ∧ b ≤ 0) ↔ ∃ k ≤ m, a = k * x := by
  obtain rfl | rfl | rfl : x = 0 ∨ x = 1 ∨ x = -1 := by omega
  · refine ⟨fun _ => ⟨0, Nat.zero_le m, by omega⟩, ?_⟩
    rintro ⟨k, -, same⟩
    omega
  · refine ⟨fun _ => ⟨a.natAbs, by omega, by omega⟩, ?_⟩
    rintro ⟨k, le, same⟩
    omega
  · refine ⟨fun _ => ⟨a.natAbs, by omega, by omega⟩, ?_⟩
    rintro ⟨k, le, same⟩
    omega

/-- On the way are the multiples of the direction, up to the end, in files and in ranks. -/
theorem onTheWay_iff (hd : d ∈ Direction.royal) (ends : s.along d n = some t) : s.OnTheWay t u ↔
    (∃ k ≤ n, s.filesTo u = k * d.files) ∧ ∃ k ≤ n, s.ranksTo u = k * d.ranks := by
  obtain ⟨files, ranks⟩ := along_eq_some_iff.1 ends
  obtain ⟨-, file, rank⟩ := Direction.mem_royal_iff.1 hd
  rw [OnTheWay, sameSide_iff file ((filesTo_add s t u).trans files),
    sameSide_iff rank ((ranksTo_add s t u).trans ranks)]

/-- A square that fewer steps reach is on the way, and the rest of the steps leads on from it. -/
theorem onTheWay_of_lt {j : Nat} (hd : d ∈ Direction.royal) (ends : s.along d (n + 1) = some t)
    (lt : j < n) (here : s.along d (j + 1) = some u) :
    s.OnTheWay t u ∧ ∃ k, u.along d (k + 1) = some t := by
  obtain ⟨files, ranks⟩ := along_eq_some_iff.1 here
  refine ⟨(onTheWay_iff hd ends).2 ⟨⟨j + 1, ?_, files⟩, ⟨j + 1, ?_, ranks⟩⟩, n - 1 - j, ?_⟩
  · omega
  · omega
  · have split : n + 1 = (j + 1) + (n - 1 - j + 1) := by omega
    rw [split, along_add, here] at ends
    exact ends

/-- On a rank or a file, fewer steps reach what is on the way. -/
theorem exists_lt_of_straight (hd : d ∈ Direction.straight) (ends : s.along d (n + 1) = some t)
    (start : s.SharesRankOrFile u) (stop : u.SharesRankOrFile t) (way : s.OnTheWay t u) :
    ∃ j < n, s.along d (j + 1) = some u := by
  obtain ⟨⟨k, le, file⟩, ⟨l, le', rank⟩⟩ := (onTheWay_iff (List.mem_append_left _ hd) ends).1 way
  have away := ne_iff.1 start.1
  have before := ne_iff.1 stop.1
  obtain ⟨files, ranks⟩ := along_eq_some_iff.1 ends
  rw [← filesTo_add s t u] at files
  rw [← ranksTo_add s t u] at ranks
  simp only [along_eq_some_iff]
  simp only [Direction.straight, List.mem_cons, List.not_mem_nil, or_false] at hd
  clear ends way start stop
  -- the other coordinate stays, so that one of the two numbers of steps is free
  rcases hd with rfl | rfl | rfl | rfl <;> dsimp only at files ranks file rank ⊢
  · exact ⟨l - 1, by omega⟩
  · exact ⟨k - 1, by omega⟩
  · exact ⟨l - 1, by omega⟩
  · exact ⟨k - 1, by omega⟩

/-- On a diagonal, fewer steps reach what is on the way. -/
theorem exists_lt_of_diagonal (hd : d ∈ Direction.diagonal) (ends : s.along d (n + 1) = some t)
    (start : s.SharesDiagonal u) (stop : u.SharesDiagonal t) (way : s.OnTheWay t u) :
    ∃ j < n, s.along d (j + 1) = some u := by
  obtain ⟨⟨k, le, file⟩, ⟨l, le', rank⟩⟩ := (onTheWay_iff (List.mem_append_right _ hd) ends).1 way
  obtain ⟨away, near⟩ := start
  have away := ne_iff.1 away
  have before := ne_iff.1 stop.1
  obtain ⟨files, ranks⟩ := along_eq_some_iff.1 ends
  rw [← filesTo_add s t u] at files
  rw [← ranksTo_add s t u] at ranks
  simp only [along_eq_some_iff]
  simp only [Direction.diagonal, List.mem_cons, List.not_mem_nil, or_false] at hd
  clear ends way stop
  -- both coordinates change alike, so that both numbers of steps are the same
  refine ⟨k - 1, ?_⟩
  rcases hd with rfl | rfl | rfl | rfl <;> dsimp only at files ranks file rank ⊢ <;> omega

end Square

namespace Position

variable {p : Position} {c : Color} {s t : Square} {d : Direction} {squares : List Square}

/-- From `s` the square `t` lies some steps in a direction, with only empty squares between. -/
def Sees (p : Position) (s : Square) (d : Direction) (t : Square) : Prop :=
  ∃ n, s.along d (n + 1) = some t ∧ ∀ j < n, ∀ u, s.along d (j + 1) = some u → p.piece? u = none

/-- A square is seen from what it sees. -/
theorem Sees.reverse (sees : p.Sees s d t) : p.Sees t d.reverse s := by
  obtain ⟨n, reached, free⟩ := sees
  refine ⟨n, Square.along_reverse reached, fun j lt u hu => ?_⟩
  -- counted from the other end, the square comes `n - j` steps along
  have split : n + 1 = (n - 1 - j + 1) + (j + 1) := by omega
  rw [split, Square.along_add] at reached
  obtain ⟨v, before, behind⟩ := Option.bind_eq_some_iff.1 reached
  have same := (Square.along_reverse behind).symm.trans hu
  obtain rfl := Option.some.inj same
  exact free _ (by omega) _ before

/-! ### Lines without pieces between -/

/-- A line of some kind leads from `s` to `t`, and no piece stands between. -/
def OpenLine (p : Position) (line : Square → Square → Prop) (s t : Square) : Prop :=
  line s t ∧ ∀ u, line s u ∧ line u t ∧ s.OnTheWay t u → p.piece? u = none

/-- Lines of a kind that directions lead along are open if the ends see each other. -/
theorem openLine_iff {line : Square → Square → Prop} {ds : List Direction}
    (royal : ∀ d ∈ ds, d ∈ Direction.royal)
    (leads : ∀ s t, line s t ↔ ∃ d ∈ ds, ∃ n, s.along d (n + 1) = some t)
    (between : ∀ d ∈ ds, ∀ n, s.along d (n + 1) = some t → ∀ u, line s u → line u t →
      s.OnTheWay t u → ∃ j < n, s.along d (j + 1) = some u) :
    p.OpenLine line s t ↔ ∃ d ∈ ds, p.Sees s d t := by
  constructor
  · rintro ⟨online, free⟩
    obtain ⟨d, hd, n, reached⟩ := (leads s t).1 online
    refine ⟨d, hd, n, reached, fun j lt u hu => ?_⟩
    obtain ⟨way, onwards⟩ := Square.onTheWay_of_lt (royal d hd) reached lt hu
    exact free u ⟨(leads s u).2 ⟨d, hd, j, hu⟩, (leads u t).2 ⟨d, hd, onwards⟩, way⟩
  · rintro ⟨d, hd, n, reached, free⟩
    refine ⟨(leads s t).2 ⟨d, hd, n, reached⟩, fun u online => ?_⟩
    obtain ⟨start, stop, way⟩ := online
    obtain ⟨j, lt, hu⟩ := between d hd n reached u start stop way
    exact free j lt u hu

/-- A rank or file is open between squares that see each other along it. -/
theorem openLine_straight_iff :
    p.OpenLine Square.SharesRankOrFile s t ↔ ∃ d ∈ Direction.straight, p.Sees s d t :=
  openLine_iff (fun _ => List.mem_append_left _) (fun _ _ => Square.sharesRankOrFile_iff)
    fun _ hd _ reached _ => Square.exists_lt_of_straight hd reached

/-- A diagonal is open between squares that see each other along it. -/
theorem openLine_diagonal_iff :
    p.OpenLine Square.SharesDiagonal s t ↔ ∃ d ∈ Direction.diagonal, p.Sees s d t :=
  openLine_iff (fun _ => List.mem_append_right _) (fun _ _ => Square.sharesDiagonal_iff)
    fun _ hd _ reached _ => Square.exists_lt_of_diagonal hd reached

/-! ### Squares in a row -/

/-- On a list of squares, `t` comes behind empty squares only. -/
def Unblocked (p : Position) (squares : List Square) (t : Square) : Prop :=
  ∃ i : Nat, squares[i]? = some t ∧ ∀ j < i, ∀ u, squares[j]? = some u → p.piece? u = none

theorem unblocked_cons : p.Unblocked (s :: squares) t ↔
    s = t ∨ p.piece? s = none ∧ p.Unblocked squares t := by
  constructor
  · rintro ⟨_ | i, here, free⟩
    · exact .inl (by simpa using here)
    · exact .inr ⟨free 0 (by omega) s rfl, i, here, fun j lt => free (j + 1) (by omega)⟩
  · rintro (rfl | ⟨empty, i, there, free⟩)
    · exact ⟨0, rfl, nofun⟩
    · refine ⟨i + 1, there, fun j lt u hu => ?_⟩
      cases j with
      | zero => simp_all
      | succ j => exact free j (by omega) u hu

/-- What a piece of colour `c` reaches along a line. -/
theorem mem_reach : t ∈ p.reach c squares ↔ p.color? t ≠ some c ∧ p.Unblocked squares t := by
  induction squares with
  | nil => simp [reach, Unblocked]
  | cons s rest ih =>
    rw [unblocked_cons, reach]
    cases hs : p.piece? s <;> grind [color?]

theorem find?_isOccupied_eq_some_iff :
    squares.find? p.isOccupied = some t ↔ p.isOccupied t = true ∧ p.Unblocked squares t := by
  induction squares with
  | nil => simp [Unblocked]
  | cons s rest ih =>
    rw [unblocked_cons]
    cases hs : p.piece? s <;> grind [isOccupied]

/-- What stands on a ray behind empty squares only is what is seen there. -/
theorem unblocked_ray (moves : d.Moves) : p.Unblocked (s.ray d) t ↔ p.Sees s d t := by
  simp only [Unblocked, Square.getElem?_ray moves, Sees]

/-- On a ray, a colour reaches what it sees, apart from its own pieces. -/
theorem mem_reach_ray (moves : d.Moves) :
    t ∈ p.reach c (s.ray d) ↔ p.color? t ≠ some c ∧ p.Sees s d t := by
  rw [mem_reach, unblocked_ray moves]

end Position

end ChessMachine
