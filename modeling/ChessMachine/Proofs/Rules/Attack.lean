import ChessMachine.Proofs.Rules.Sight

/-!
# Attacks

A square is attacked by an enemy pawn that stands diagonally ahead of it, by an enemy knight or
king one step of theirs away, and by an enemy rook, bishop or queen that is the first piece in
one of its directions. Nothing is said about whose turn it is, or whether the enemy may move.

## Main definitions

* `Position.firstOccupied?` — the first occupied square in a direction.
* `Position.Attacked` — a square is attacked by the opponent of a colour.
* `Position.KingAttacked` — the first king of a colour is.
* `Position.Strikes` — how a piece attacks a square, in files and ranks.
* `Position.Threat` — an attack along a line.

## Main results

* `Position.attacked_iff_strikes` — attacks without reference to directions and steps.
* `Position.isAttacked_iff` — attacks can be decided.
* `Position.Attacked.congr` — what attacks depend on.
-/
namespace ChessMachine

namespace Color

@[simp] theorem ne_opponent (c : Color) : c ≠ c.opponent := by cases c <;> exact nofun

/-- There are only two colours. -/
theorem eq_opponent_of_ne {c d : Color} (h : c ≠ d) : c = d.opponent := by
  cases c <;> cases d <;> first | rfl | exact absurd rfl h

end Color

namespace Position

def firstOccupied? (p : Position) (s : Square) (d : Direction) : Option Square :=
  (s.ray d).find? p.isOccupied

/-- An enemy of `c` attacks the square `s`: it is met by looking from there in the directions in which
it moves. By files and ranks, `attacked_iff_strikes` says the same. -/
inductive Attacked (p : Position) (c : Color) (s : Square) : Prop where
  /-- The pawns of the enemy attack backwards, as seen by `c`. -/
  | pawn {d t} (direction : d ∈ Direction.pawn c) (step : s.step d = some t)
      (piece : p.piece? t = some ⟨c.opponent, .pawn⟩)
  | knight {d t} (direction : d ∈ Direction.knight) (step : s.step d = some t)
      (piece : p.piece? t = some ⟨c.opponent, .knight⟩)
  | king {d t} (direction : d ∈ Direction.royal) (step : s.step d = some t)
      (piece : p.piece? t = some ⟨c.opponent, .king⟩)
  | straight {d t} (direction : d ∈ Direction.straight) (first : p.firstOccupied? s d = some t)
      (piece : p.piece? t = some ⟨c.opponent, .rook⟩ ∨ p.piece? t = some ⟨c.opponent, .queen⟩)
  | diagonal {d t} (direction : d ∈ Direction.diagonal) (first : p.firstOccupied? s d = some t)
      (piece : p.piece? t = some ⟨c.opponent, .bishop⟩ ∨ p.piece? t = some ⟨c.opponent, .queen⟩)

/-- The first king of colour `c`, from `a1` to `h8`, is attacked. -/
def KingAttacked (p : Position) (c : Color) : Prop := ∃ k, p.king? c = some k ∧ p.Attacked c k

/-! ## In files and ranks

The directions are those that a program looks along. Where the pieces stand says the same.
-/

/-- A piece of the kind on `t`, an enemy of `c`, attacks `s`. -/
def Strikes (p : Position) (c : Color) (t s : Square) : PieceKind → Prop
  | .pawn => (s.filesTo t).natAbs = 1 ∧ s.ranksTo t = c.sign
  | .knight => (s.filesTo t).natAbs = 1 ∧ (s.ranksTo t).natAbs = 2 ∨
      (s.filesTo t).natAbs = 2 ∧ (s.ranksTo t).natAbs = 1
  | .bishop => p.OpenLine Square.SharesDiagonal s t
  | .rook => p.OpenLine Square.SharesRankOrFile s t
  | .queen => p.OpenLine Square.SharesRankOrFile s t ∨ p.OpenLine Square.SharesDiagonal s t
  | .king => s.Adjacent t

section Strikes

variable {p : Position} {c : Color} {s t : Square} {d : Direction}

/-- The first occupied square in a direction is the one that is seen there. -/
theorem firstOccupied?_eq_some_iff (moves : d.Moves) :
    p.firstOccupied? s d = some t ↔ p.isOccupied t = true ∧ p.Sees s d t := by
  rw [firstOccupied?, find?_isOccupied_eq_some_iff, unblocked_ray moves]

/-- A piece is the first one in some directions if it stands at the end of an open line. -/
theorem exists_firstOccupied?_iff {ds : List Direction} {piece : Piece}
    (moves : ∀ d ∈ ds, d.Moves) (here : p.piece? t = some piece) :
    (∃ d ∈ ds, p.firstOccupied? s d = some t) ↔ ∃ d ∈ ds, p.Sees s d t := by
  have occupied : p.isOccupied t = true := by rw [isOccupied, here, Option.isSome_some]
  refine exists_congr fun d => and_congr_right fun hd => ?_
  rw [firstOccupied?_eq_some_iff (moves d hd), and_iff_right occupied]

/-- A square is attacked exactly if an enemy stands where it strikes the square. -/
theorem attacked_iff_strikes : p.Attacked c s ↔
    ∃ t kind, p.piece? t = some ⟨c.opponent, kind⟩ ∧ p.Strikes c t s kind := by
  have straight {piece : Piece} {t : Square} (here : p.piece? t = some piece) :
      (∃ d ∈ Direction.straight, p.firstOccupied? s d = some t) ↔
        p.OpenLine Square.SharesRankOrFile s t :=
    (exists_firstOccupied?_iff (by decide) here).trans openLine_straight_iff.symm
  have diagonal {piece : Piece} {t : Square} (here : p.piece? t = some piece) :
      (∃ d ∈ Direction.diagonal, p.firstOccupied? s d = some t) ↔
        p.OpenLine Square.SharesDiagonal s t :=
    (exists_firstOccupied?_iff (by decide) here).trans openLine_diagonal_iff.symm
  constructor
  · intro attacked
    cases attacked with
    | pawn hd step piece =>
      exact ⟨_, .pawn, piece,
        Direction.mem_pawn_iff.1 (Square.exists_mem_step_iff.1 ⟨_, hd, step⟩)⟩
    | knight hd step piece =>
      exact ⟨_, .knight, piece,
        Direction.mem_knight_iff.1 (Square.exists_mem_step_iff.1 ⟨_, hd, step⟩)⟩
    | king hd step piece =>
      exact ⟨_, .king, piece, Square.exists_royal_step_iff.1 ⟨_, hd, step⟩⟩
    | straight hd first piece =>
      rcases piece with rook | queen
      · exact ⟨_, .rook, rook, (straight rook).1 ⟨_, hd, first⟩⟩
      · exact ⟨_, .queen, queen, .inl ((straight queen).1 ⟨_, hd, first⟩)⟩
    | diagonal hd first piece =>
      rcases piece with bishop | queen
      · exact ⟨_, .bishop, bishop, (diagonal bishop).1 ⟨_, hd, first⟩⟩
      · exact ⟨_, .queen, queen, .inr ((diagonal queen).1 ⟨_, hd, first⟩)⟩
  · rintro ⟨t, kind, piece, strikes⟩
    cases kind with
    | pawn =>
      obtain ⟨d, hd, step⟩ := Square.exists_mem_step_iff.2 (Direction.mem_pawn_iff.2 strikes)
      exact .pawn hd step piece
    | knight =>
      obtain ⟨d, hd, step⟩ := Square.exists_mem_step_iff.2 (Direction.mem_knight_iff.2 strikes)
      exact .knight hd step piece
    | king =>
      obtain ⟨d, hd, step⟩ := Square.exists_royal_step_iff.2 strikes
      exact .king hd step piece
    | bishop =>
      obtain ⟨d, hd, first⟩ := (diagonal piece).2 strikes
      exact .diagonal hd first (.inl piece)
    | rook =>
      obtain ⟨d, hd, first⟩ := (straight piece).2 strikes
      exact .straight hd first (.inl piece)
    | queen =>
      rcases strikes with line | line
      · obtain ⟨d, hd, first⟩ := (straight piece).2 line
        exact .straight hd first (.inr piece)
      · obtain ⟨d, hd, first⟩ := (diagonal piece).2 line
        exact .diagonal hd first (.inr piece)

end Strikes

/-! ## Deciding -/

def holds (p : Position) (attackers : List Piece) (s : Square) : Bool :=
  attackers.any fun attacker => p.piece? s = some attacker

def jumpAttack (p : Position) (c : Color) (s : Square) (directions : List Direction)
    (kind : PieceKind) : Bool :=
  (directions.filterMap s.step).any (p.holds [⟨c.opponent, kind⟩])

/-- A piece of that kind or a queen is the first one in one of the directions. -/
def rayAttack (p : Position) (c : Color) (s : Square) (directions : List Direction)
    (kind : PieceKind) : Bool :=
  directions.any fun d =>
    (p.firstOccupied? s d).any (p.holds [⟨c.opponent, kind⟩, ⟨c.opponent, .queen⟩])

def isAttacked (p : Position) (c : Color) (s : Square) : Bool :=
  p.jumpAttack c s (Direction.pawn c) .pawn || p.jumpAttack c s Direction.knight .knight
    || p.jumpAttack c s Direction.royal .king || p.rayAttack c s Direction.straight .rook
    || p.rayAttack c s Direction.diagonal .bishop

variable {p : Position} {c : Color} {s : Square} {directions : List Direction} {kind : PieceKind}

theorem holds_of_not_isOccupied {attackers : List Piece} (h : p.isOccupied s = false) :
    p.holds attackers s = false := by
  have empty : p.piece? s = none := by simpa [isOccupied] using h
  simp [holds, empty]

theorem jumpAttack_iff : p.jumpAttack c s directions kind = true ↔
    ∃ d ∈ directions, ∃ t, s.step d = some t ∧ p.piece? t = some ⟨c.opponent, kind⟩ := by
  simp only [jumpAttack, holds, List.any_eq_true, List.mem_filterMap, List.mem_singleton,
    exists_eq_left, decide_eq_true_eq]
  grind

theorem rayAttack_iff : p.rayAttack c s directions kind = true ↔
    ∃ d ∈ directions, ∃ t, p.firstOccupied? s d = some t ∧
      (p.piece? t = some ⟨c.opponent, kind⟩ ∨ p.piece? t = some ⟨c.opponent, .queen⟩) := by
  simp [rayAttack, holds, Option.any_eq_true]

/-- The tests by directions and pieces tell whether a square is attacked. -/
theorem isAttacked_iff : p.isAttacked c s = true ↔ p.Attacked c s := by
  simp only [isAttacked, Bool.or_eq_true, jumpAttack_iff, rayAttack_iff]
  constructor
  · rintro ((((⟨d, hd, t, ht, hp⟩ | ⟨d, hd, t, ht, hp⟩) | ⟨d, hd, t, ht, hp⟩)
      | ⟨d, hd, t, ht, hp⟩) | ⟨d, hd, t, ht, hp⟩)
    · exact .pawn hd ht hp
    · exact .knight hd ht hp
    · exact .king hd ht hp
    · exact .straight hd ht hp
    · exact .diagonal hd ht hp
  · rintro (⟨hd, ht, hp⟩ | ⟨hd, ht, hp⟩ | ⟨hd, ht, hp⟩ | ⟨hd, ht, hp⟩ | ⟨hd, ht, hp⟩)
    · exact .inl (.inl (.inl (.inl ⟨_, hd, _, ht, hp⟩)))
    · exact .inl (.inl (.inl (.inr ⟨_, hd, _, ht, hp⟩)))
    · exact .inl (.inl (.inr ⟨_, hd, _, ht, hp⟩))
    · exact .inl (.inr ⟨_, hd, _, ht, hp⟩)
    · exact .inr ⟨_, hd, _, ht, hp⟩

instance (p : Position) (c : Color) (s : Square) : Decidable (p.Attacked c s) :=
  decidable_of_iff _ isAttacked_iff

theorem kingAttacked_iff :
    (p.king? c).any (p.isAttacked c) = true ↔ p.KingAttacked c := by
  simp only [Option.any_eq_true, isAttacked_iff, KingAttacked]

instance (p : Position) (c : Color) : Decidable (p.KingAttacked c) :=
  decidable_of_iff _ kingAttacked_iff

theorem kingAttacked_iff_of_king? {k : Square} (king : p.king? c = some k) :
    p.KingAttacked c ↔ p.Attacked c k := by
  simp [KingAttacked, king]

/-! ## Lines

A sliding piece attacks along a line of squares. What it sees there depends on these squares only.
-/

/-- The first piece on the squares is an enemy one of the kind, or an enemy queen. -/
def Threat (p : Position) (c : Color) (kind : PieceKind) (squares : List Square) : Prop :=
  ∃ t, squares.find? p.isOccupied = some t ∧
    (p.piece? t = some ⟨c.opponent, kind⟩ ∨ p.piece? t = some ⟨c.opponent, .queen⟩)

variable {q : Position} {squares rest : List Square}

theorem isOccupied_eq_true_iff : p.isOccupied s = true ↔ ∃ piece, p.piece? s = some piece :=
  Option.isSome_iff_exists

theorem threat_cons_of_none (empty : p.piece? s = none) :
    p.Threat c kind (s :: rest) ↔ p.Threat c kind rest := by
  have free : ¬ p.isOccupied s = true := by simp [isOccupied, empty]
  rw [Threat, List.find?_cons_of_neg free, Threat]

/-- Where no enemy stands, nothing threatens. -/
theorem not_threat_of_forall
    (friendly : ∀ t ∈ squares, ∀ k, p.piece? t ≠ some ⟨c.opponent, k⟩) :
    ¬ p.Threat c kind squares := by
  rintro ⟨t, first, enemy | enemy⟩
  · exact friendly t (List.mem_of_find?_eq_some first) _ enemy
  · exact friendly t (List.mem_of_find?_eq_some first) _ enemy

/-- A piece of one's own blocks a line. -/
theorem not_threat_cons_of_own {k : PieceKind} (own : p.piece? s = some ⟨c, k⟩) :
    ¬ p.Threat c kind (s :: rest) := by
  have blocked : p.isOccupied s = true := isOccupied_eq_true_iff.2 ⟨_, own⟩
  rintro ⟨t, first, enemy⟩
  rw [List.find?_cons_of_pos blocked] at first
  obtain rfl := Option.some.inj first
  simp [own] at enemy

theorem Threat.congr (same : ∀ t ∈ squares, p.piece? t = q.piece? t)
    (threat : p.Threat c kind squares) : q.Threat c kind squares := by
  obtain ⟨t, first, enemy⟩ := threat
  have here := same t (List.mem_of_find?_eq_some first)
  obtain ⟨occupied, before, after, rfl, free⟩ := List.find?_eq_some_iff_append.1 first
  refine ⟨t, List.find?_eq_some_iff_append.2 ⟨?_, before, after, rfl, fun s hs => ?_⟩, here ▸ enemy⟩
  · rwa [isOccupied, ← here]
  · rw [isOccupied, ← same s (List.mem_append_left _ hs)]
    exact free s hs

/-- A square is attacked in another position if enemies stand where they stood, if nothing else
differs off the rank of the square, and if it is still attacked along the rank. -/
theorem Attacked.congr (attacked : p.Attacked c s)
    (enemies : ∀ t k, p.piece? t = some ⟨c.opponent, k⟩ → q.piece? t = some ⟨c.opponent, k⟩)
    (elsewhere : ∀ t, t.rank ≠ s.rank → p.piece? t = q.piece? t)
    (sideways : ∀ d ∈ Direction.straight, d.ranks = 0 → p.Threat c .rook (s.ray d) →
      q.Threat c .rook (s.ray d)) : q.Attacked c s := by
  have sloped {d kind} (slope : d.ranks ≠ 0) (threat : p.Threat c kind (s.ray d)) :
      q.Threat c kind (s.ray d) :=
    threat.congr fun t ht => elsewhere t (Square.rank_ne_of_mem_ray slope ht)
  cases attacked with
  | pawn hd ht piece => exact .pawn hd ht (enemies _ _ piece)
  | knight hd ht piece => exact .knight hd ht (enemies _ _ piece)
  | king hd ht piece => exact .king hd ht (enemies _ _ piece)
  | @straight d t hd first piece =>
    have threat : p.Threat c .rook (s.ray d) := ⟨t, first, piece⟩
    by_cases slope : d.ranks = 0
    · obtain ⟨u, first, piece⟩ := sideways d hd slope threat
      exact .straight hd first piece
    · obtain ⟨u, first, piece⟩ := sloped slope threat
      exact .straight hd first piece
  | @diagonal d t hd first piece =>
    have slope : d.ranks ≠ 0 := (by decide : ∀ d ∈ Direction.diagonal, d.ranks ≠ 0) d hd
    obtain ⟨u, first, piece⟩ := sloped slope ⟨t, first, piece⟩
    exact .diagonal hd first piece

end Position

end ChessMachine
