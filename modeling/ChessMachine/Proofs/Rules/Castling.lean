import ChessMachine.Proofs.Board.King
import ChessMachine.Proofs.Rules.Attack
import ChessMachine.Rules.Legal

/-!
# Castling and attacks

A king that castles is looked at on three boards: at home, alone on the square that it crosses,
and beside its rook. The attacks there are those on the same squares of the board as it stands,
since the pieces that have moved opened no line but the one on which the king was attacked at
home.

## Main definitions

* `Square.kingHome`, `Square.rookHome`, `Square.crossed`, `Square.castled` — the squares.
* `Position.ReadyToCastle` — king and rook are at home and the squares between them are empty.
* `Position.IsHalfway`, `Position.IsCastled` — the boards on the way.

## Main results

* `Position.IsHalfway.attacked_iff`, `Position.IsCastled.attacked_iff` — the attacks there.
-/
namespace ChessMachine

/-! ## Squares -/

namespace Wing

def other : Wing → Wing
  | short => long
  | long => short

def direction : Wing → Direction
  | short => ⟨1, 0⟩
  | long => ⟨-1, 0⟩

/-- The sides of a square are the two wings. -/
theorem eq_direction (w : Wing) :
    ∀ d ∈ Direction.straight, d.ranks = 0 → d = w.direction ∨ d = w.other.direction := by
  cases w <;> decide

end Wing

namespace Square

def kingHome (c : Color) : Square := ⟨File.kingHome, Rank.first c⟩

def rookHome (c : Color) (w : Wing) : Square := ⟨w.rookFile, Rank.first c⟩

/-- The square that the king crosses and where the rook arrives. -/
def crossed (c : Color) (w : Wing) : Square := ⟨w.rookTarget, Rank.first c⟩

def castled (c : Color) (w : Wing) : Square := ⟨w.kingTarget, Rank.first c⟩

/-- Behind itself, the king on its way has its home. -/
theorem ray_crossed (c : Color) (w : Wing) : (crossed c w).ray w.other.direction
    = kingHome c :: (kingHome c).ray w.other.direction := by
  cases c <;> cases w <;> decide

theorem ray_castled (c : Color) (w : Wing) : (castled c w).ray w.other.direction
    = crossed c w :: kingHome c :: (kingHome c).ray w.other.direction := by
  cases c <;> cases w <;> decide

/-- Beyond the castled king are only the squares that were empty, and the corner of the rook. -/
theorem mem_ray_castled (c : Color) (w : Wing) : ∀ t ∈ (castled c w).ray w.direction,
    t = rookHome c w ∨ ∃ f ∈ w.between, t = ⟨f, Rank.first c⟩ := by
  cases c <;> cases w <;> decide

theorem not_mem_ray_crossed (c : Color) (w : Wing) :
    crossed c w ∉ (crossed c w).ray w.direction ∧ kingHome c ∉ (crossed c w).ray w.direction := by
  cases c <;> cases w <;> decide

theorem not_mem_ray_kingHome (c : Color) (w : Wing) :
    crossed c w ∉ (kingHome c).ray w.other.direction ∧
      kingHome c ∉ (kingHome c).ray w.other.direction := by
  cases c <;> cases w <;> decide

end Square

namespace Position

open Square (kingHome rookHome crossed castled)

/-- King and rook are at home, with nothing between them, and there is no other king. -/
structure ReadyToCastle (p : Position) (c : Color) (w : Wing) : Prop where
  only : ∀ s, p.piece? s = some ⟨c, .king⟩ ↔ s = kingHome c
  rook : p.piece? (rookHome c w) = some ⟨c, .rook⟩
  free : ∀ f ∈ w.between, p.piece? ⟨f, Rank.first c⟩ = none

variable {p q : Position} {c : Color} {w : Wing}

namespace ReadyToCastle

theorem king (ready : p.ReadyToCastle c w) : p.piece? (kingHome c) = some ⟨c, .king⟩ :=
  (ready.only _).2 rfl

theorem crossed_free (ready : p.ReadyToCastle c w) : p.piece? (crossed c w) = none :=
  ready.free w.rookTarget (by cases w <;> decide)

theorem castled_free (ready : p.ReadyToCastle c w) : p.piece? (castled c w) = none :=
  ready.free w.kingTarget (by cases w <;> decide)

end ReadyToCastle

/-! ## The king on the square that it crosses -/

/-- The board on which only the king has moved, by one square. -/
structure IsHalfway (p : Position) (c : Color) (w : Wing) (q : Position) : Prop where
  king : q.piece? (crossed c w) = some ⟨c, .king⟩
  home : q.piece? (kingHome c) = none
  same : ∀ t, t ≠ crossed c w → t ≠ kingHome c → p.piece? t = q.piece? t

namespace IsHalfway

theorem elsewhere (half : p.IsHalfway c w q) (t : Square) (h : t.rank ≠ Rank.first c) :
    p.piece? t = q.piece? t :=
  half.same t (fun e => h (e ▸ rfl)) (fun e => h (e ▸ rfl))

variable (ready : p.ReadyToCastle c w) (half : p.IsHalfway c w q)
include ready half

/-- The enemies stand as they stood before the king moved. -/
theorem enemy_iff (t : Square) (k : PieceKind) :
    p.piece? t = some ⟨c.opponent, k⟩ ↔ q.piece? t = some ⟨c.opponent, k⟩ := by
  by_cases there : t = crossed c w
  · simp [there, ready.crossed_free, half.king]
  · by_cases home : t = kingHome c
    · simp [home, ready.king, half.home]
    · rw [half.same t there home]

/-- The king is found on the square that it crosses. -/
theorem king?_eq : q.king? c = some (crossed c w) := by
  refine king?_of_unique fun s => ?_
  by_cases there : s = crossed c w
  · simp [there, half.king]
  · by_cases home : s = kingHome c
    · simp [home, half.home, show kingHome c ≠ crossed c w from fun e => there (home.trans e)]
    · rw [← half.same s there home, ready.only]
      simp [there, home]

/-- Unless the king is attacked at home, the square that it crosses is attacked alike, whether it
stands there or at home. -/
theorem attacked_iff (safe : ¬ p.Attacked c (kingHome c)) :
    q.Attacked c (crossed c w) ↔ p.Attacked c (crossed c w) := by
  have ahead : ∀ t ∈ (crossed c w).ray w.direction, p.piece? t = q.piece? t := by
    intro t ht
    refine half.same t ?_ ?_ <;> rintro rfl
    · exact (Square.not_mem_ray_crossed c w).1 ht
    · exact (Square.not_mem_ray_crossed c w).2 ht
  have behind : ∀ t ∈ (kingHome c).ray w.other.direction, p.piece? t = q.piece? t := by
    intro t ht
    refine half.same t ?_ ?_ <;> rintro rfl
    · exact (Square.not_mem_ray_kingHome c w).1 ht
    · exact (Square.not_mem_ray_kingHome c w).2 ht
  constructor
  · intro attacked
    refine attacked.congr (fun t k => (half.enemy_iff ready t k).2)
      (fun t h => (half.elsewhere t h).symm) fun d hd flat threat => ?_
    rcases w.eq_direction d hd flat with rfl | rfl
    · exact threat.congr fun t ht => (ahead t ht).symm
    · rw [Square.ray_crossed, threat_cons_of_none half.home] at threat
      obtain ⟨t, first, piece⟩ := threat.congr fun t ht => (behind t ht).symm
      exact absurd (.straight hd first piece) safe
  · intro attacked
    refine attacked.congr (fun t k => (half.enemy_iff ready t k).1)
      half.elsewhere fun d hd flat threat => ?_
    rcases w.eq_direction d hd flat with rfl | rfl
    · exact threat.congr ahead
    · rw [Square.ray_crossed] at threat
      exact absurd threat (not_threat_cons_of_own ready.king)

end IsHalfway

/-! ## King and rook after castling -/

/-- The board on which the king has castled. -/
structure IsCastled (p : Position) (c : Color) (w : Wing) (q : Position) : Prop where
  king : q.piece? (castled c w) = some ⟨c, .king⟩
  rook : q.piece? (crossed c w) = some ⟨c, .rook⟩
  home : q.piece? (kingHome c) = none
  corner : q.piece? (rookHome c w) = none
  same : ∀ t, t ≠ castled c w → t ≠ crossed c w → t ≠ kingHome c → t ≠ rookHome c w →
    p.piece? t = q.piece? t

namespace IsCastled

theorem elsewhere (after : p.IsCastled c w q) (t : Square) (h : t.rank ≠ Rank.first c) :
    p.piece? t = q.piece? t :=
  after.same t (fun e => h (e ▸ rfl)) (fun e => h (e ▸ rfl)) (fun e => h (e ▸ rfl))
    (fun e => h (e ▸ rfl))

variable (ready : p.ReadyToCastle c w) (after : p.IsCastled c w q)
include ready after

theorem enemy_iff (t : Square) (k : PieceKind) :
    p.piece? t = some ⟨c.opponent, k⟩ ↔ q.piece? t = some ⟨c.opponent, k⟩ := by
  by_cases target : t = castled c w
  · simp [target, ready.castled_free, after.king]
  by_cases there : t = crossed c w
  · simp [there, ready.crossed_free, after.rook]
  by_cases home : t = kingHome c
  · simp [home, ready.king, after.home]
  by_cases corner : t = rookHome c w
  · simp [corner, ready.rook, after.corner]
  rw [after.same t target there home corner]

/-- The king that has castled is the only one. -/
theorem only (s : Square) : q.piece? s = some ⟨c, .king⟩ ↔ s = castled c w := by
  refine ⟨fun hs => ?_, fun hs => hs ▸ after.king⟩
  refine Classical.byContradiction fun target => ?_
  by_cases there : s = crossed c w
  · simp [there, after.rook] at hs
  by_cases home : s = kingHome c
  · simp [home, after.home] at hs
  by_cases corner : s = rookHome c w
  · simp [corner, after.corner] at hs
  rw [← after.same s target there home corner] at hs
  exact home ((ready.only s).1 hs)

theorem king?_eq : q.king? c = some (castled c w) := king?_of_unique (after.only ready)

/-- Along its rank the king is safe where it arrives, before the rook has moved and after. -/
theorem not_threat {d : Direction} (hd : d ∈ Direction.straight) (flat : d.ranks = 0) :
    ¬ p.Threat c .rook ((castled c w).ray d) ∧ ¬ q.Threat c .rook ((castled c w).ray d) := by
  rcases w.eq_direction d hd flat with rfl | rfl
  · have friendly : ∀ t ∈ (castled c w).ray w.direction, ∀ k,
        p.piece? t ≠ some ⟨c.opponent, k⟩ := by
      intro t ht k
      rcases Square.mem_ray_castled c w t ht with rfl | ⟨f, hf, rfl⟩
      · simp [ready.rook]
      · simp [ready.free f hf]
    refine ⟨not_threat_of_forall friendly, not_threat_of_forall fun t ht k enemy => ?_⟩
    exact friendly t ht k ((after.enemy_iff ready t k).2 enemy)
  · rw [Square.ray_castled, threat_cons_of_none ready.crossed_free]
    exact ⟨not_threat_cons_of_own ready.king, not_threat_cons_of_own after.rook⟩

/-- The square where the king arrives is attacked alike before and after. -/
theorem attacked_iff : q.Attacked c (castled c w) ↔ p.Attacked c (castled c w) := by
  constructor
  · intro attacked
    exact attacked.congr (fun t k => (after.enemy_iff ready t k).2)
      (fun t h => (after.elsewhere t h).symm) fun d hd flat threat =>
        absurd threat (after.not_threat ready hd flat).2
  · intro attacked
    exact attacked.congr (fun t k => (after.enemy_iff ready t k).1)
      after.elsewhere fun d hd flat threat => absurd threat (after.not_threat ready hd flat).1

end IsCastled

end Position

end ChessMachine
