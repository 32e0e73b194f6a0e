import ChessMachine.Rules.Direction

/-!
# Steps and rays

A step adds its files and ranks to the coordinates of a square, and the squares of a ray lie a
whole number of steps away. How two squares lie to each other is told by the files and the ranks
from one to the other, without reference to steps.

## Main definitions

* `Square.filesTo`, `Square.ranksTo` — how far one square lies from another.
* `Square.Adjacent`, `Square.SharesRankOrFile`, `Square.SharesDiagonal`, `Square.OnTheWay` — how
  squares lie to each other.

## Main results

* `Square.step_eq_some_iff`, `Square.ahead_eq_some_iff` — steps in coordinates.
* `Square.exists_mem_step_iff` — which squares are a step away.
* `Square.exists_of_mem_ray` — rays in coordinates.
* `Square.length_ray_le` — a ray has at most seven squares.
-/
namespace ChessMachine

theorem shift?_eq_some_iff {i j : Fin 8} {delta : Int} :
    shift? i delta = some j ↔ (j.val : Int) = i.val + delta := by
  by_cases inside : 0 ≤ (i.val : Int) + delta ∧ (i.val : Int) + delta < 8
  · rw [shift?, dif_pos inside, Option.some.injEq, Fin.ext_iff]
    show ((i.val : Int) + delta).toNat = j.val ↔ _
    omega
  · rw [shift?, dif_neg inside]
    refine ⟨nofun, fun h => ?_⟩
    omega

theorem Rank.eq_iff {r s : Rank} : r = s ↔ r.index.val = s.index.val := by
  rw [← Fin.ext_iff]
  exact ⟨fun h => h ▸ rfl, fun h => congrArg Rank.mk h⟩

namespace Square

/-! ## Files and ranks -/

/-- By how many files `t` lies to the right of `s`. -/
def filesTo (s t : Square) : Int := t.file.index.val - s.file.index.val

/-- By how many ranks `t` lies above `s`. -/
def ranksTo (s t : Square) : Int := t.rank.index.val - s.rank.index.val

/-- The squares are different and touch each other. -/
def Adjacent (s t : Square) : Prop :=
  s ≠ t ∧ (t.file.index.val - s.file.index.val : Int).natAbs ≤ 1 ∧
    (t.rank.index.val - s.rank.index.val : Int).natAbs ≤ 1

instance (s t : Square) : Decidable (s.Adjacent t) := inferInstanceAs (Decidable (_ ∧ _ ∧ _))

def SharesRankOrFile (s t : Square) : Prop := s ≠ t ∧ (s.filesTo t = 0 ∨ s.ranksTo t = 0)

def SharesDiagonal (s t : Square) : Prop :=
  s ≠ t ∧ (s.ranksTo t = s.filesTo t ∨ s.ranksTo t = -s.filesTo t)

/-- A way from `s` to `t` over `u` goes on as it began, in files and in ranks. -/
def OnTheWay (s t u : Square) : Prop :=
  (0 ≤ s.filesTo u ∧ 0 ≤ u.filesTo t ∨ s.filesTo u ≤ 0 ∧ u.filesTo t ≤ 0) ∧
    (0 ≤ s.ranksTo u ∧ 0 ≤ u.ranksTo t ∨ s.ranksTo u ≤ 0 ∧ u.ranksTo t ≤ 0)

theorem ne_iff {s t : Square} : s ≠ t ↔ s.filesTo t ≠ 0 ∨ s.ranksTo t ≠ 0 := by
  rw [Ne, ← index_inj, filesTo, ranksTo]
  unfold index
  omega

theorem filesTo_add (s t u : Square) : s.filesTo u + u.filesTo t = s.filesTo t := by
  unfold filesTo
  omega

theorem ranksTo_add (s t u : Square) : s.ranksTo u + u.ranksTo t = s.ranksTo t := by
  unfold ranksTo
  omega

/-- Every pair of coordinates on the board is that of a square. -/
theorem exists_of_coordinates {i j : Int} (file : 0 ≤ i ∧ i < 8) (rank : 0 ≤ j ∧ j < 8) :
    ∃ s : Square, (s.file.index.val : Int) = i ∧ (s.rank.index.val : Int) = j :=
  ⟨⟨⟨⟨i.toNat, by omega⟩⟩, ⟨⟨j.toNat, by omega⟩⟩⟩, by dsimp only; omega, by dsimp only; omega⟩

/-! ## Steps -/

/-- An offset adds to the file and to the rank, and leads nowhere beyond the board. -/
theorem offset_eq_some_iff {s t : Square} {files ranks : Int} :
    s.offset files ranks = some t ↔
      (t.file.index.val : Int) = s.file.index.val + files ∧
      (t.rank.index.val : Int) = s.rank.index.val + ranks := by
  obtain ⟨⟨f⟩, ⟨r⟩⟩ := t
  rw [← shift?_eq_some_iff, ← shift?_eq_some_iff, offset, File.offset, Rank.offset]
  cases shift? s.file.index files <;> cases shift? s.rank.index ranks <;> simp

theorem step_eq_some_iff {s t : Square} {d : Direction} :
    s.step d = some t ↔
      (t.file.index.val : Int) = s.file.index.val + d.files ∧
      (t.rank.index.val : Int) = s.rank.index.val + d.ranks :=
  offset_eq_some_iff

/-- A square is one of some steps away if these include the files and ranks to it. -/
theorem exists_mem_step_iff {s t : Square} {ds : List Direction} :
    (∃ d ∈ ds, s.step d = some t) ↔ ⟨s.filesTo t, s.ranksTo t⟩ ∈ ds := by
  have step (d : Direction) : s.step d = some t ↔ d = ⟨s.filesTo t, s.ranksTo t⟩ := by
    obtain ⟨files, ranks⟩ := d
    rw [step_eq_some_iff, Direction.mk.injEq, filesTo, ranksTo]
    dsimp only
    omega
  simp only [step, exists_eq_right]

/-- Behind a square, as one colour sees it, is ahead as the other does. -/
theorem behind_eq_ahead (s : Square) (c : Color) : s.behind c = s.ahead c.opponent 1 := by
  cases c <;> rfl

/-- Ahead is, on the same file, where the pawns of a colour go. -/
theorem ahead_eq_some_iff {s t : Square} {c : Color} {n : Nat} : s.ahead c n = some t ↔
    t.file = s.file ∧ (t.rank.index.val : Int) = s.rank.index.val + n * c.sign := by
  obtain ⟨⟨f⟩, r⟩ := s
  obtain ⟨⟨g⟩, q⟩ := t
  rw [ahead, offset_eq_some_iff, Int.add_zero, File.mk.injEq, Fin.ext_iff, Int.natCast_inj]

theorem exists_of_mem_steps {s t : Square} {d : Direction} {n : Nat} (h : t ∈ s.steps d n) :
    ∃ k : Nat, 0 < k ∧ k ≤ n ∧
      (t.file.index.val : Int) = s.file.index.val + k * d.files ∧
      (t.rank.index.val : Int) = s.rank.index.val + k * d.ranks := by
  induction n generalizing s with
  | zero => cases h
  | succ n ih =>
    rw [steps] at h
    cases hs : s.step d with
    | none => simp [hs] at h
    | some u =>
      obtain ⟨files, ranks⟩ := step_eq_some_iff.1 hs
      simp only [hs, List.mem_cons] at h
      rcases h with rfl | h
      · exact ⟨1, by omega, by omega, by omega, by omega⟩
      · obtain ⟨k, -, le, hf, hr⟩ := ih h
        refine ⟨k + 1, by omega, by omega, ?_, ?_⟩
        · rw [hf, files, Int.natCast_succ, Int.add_mul]
          omega
        · rw [hr, ranks, Int.natCast_succ, Int.add_mul]
          omega

/-- The squares of a ray lie up to seven steps away. -/
theorem exists_of_mem_ray {s t : Square} {d : Direction} (h : t ∈ s.ray d) :
    ∃ k : Nat, 0 < k ∧ k ≤ 7 ∧
      (t.file.index.val : Int) = s.file.index.val + k * d.files ∧
      (t.rank.index.val : Int) = s.rank.index.val + k * d.ranks :=
  exists_of_mem_steps h

/-- A ray that is not horizontal leaves the rank of its origin. -/
theorem rank_ne_of_mem_ray {s t : Square} {d : Direction} (slope : d.ranks ≠ 0)
    (h : t ∈ s.ray d) : t.rank ≠ s.rank := by
  obtain ⟨k, pos, -, -, ranks⟩ := exists_of_mem_ray h
  intro same
  rw [same] at ranks
  have := Int.mul_ne_zero (by omega : (k : Int) ≠ 0) slope
  omega

theorem length_steps_le (s : Square) (d : Direction) (n : Nat) : (s.steps d n).length ≤ n := by
  induction n generalizing s with
  | zero => exact Nat.le_refl 0
  | succ n ih =>
    rw [steps]
    cases s.step d with
    | none => exact Nat.zero_le _
    | some t => exact Nat.succ_le_succ (ih t)

theorem length_ray_le (s : Square) (d : Direction) : (s.ray d).length ≤ 7 := s.length_steps_le d 7

end Square

end ChessMachine
