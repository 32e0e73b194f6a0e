import ChessMachine.Board.Position

/-!
# The list of squares

All squares are listed once, by their index. A board is known by its contents in that order.

## Main results

* `Square.pairwise_all`, `Square.nodup_all` — squares are listed by their index.
* `Square.perm_map_all` — maps of the board that undo themselves keep the list up to its order.
* `Square.index_getElem_all` — the index is the place in the list.
* `Board.ofCells_map_piece?` — a board is read back from the list of its contents.
-/
namespace ChessMachine

namespace Square

theorem pairwise_all : all.Pairwise fun s t => s.index < t.index := by decide +kernel

theorem nodup_all : all.Nodup :=
  pairwise_all.imp fun lt same => Nat.ne_of_lt lt (congrArg index same)

theorem length_all : all.length = 64 := rfl

theorem countP_all_le (test : Square → Bool) : all.countP test ≤ 64 :=
  Nat.le_trans List.countP_le_length (Nat.le_of_eq length_all)

/-- A map of the board that undoes itself only changes the order of the squares. -/
theorem perm_map_all {f : Square → Square} (undo : ∀ s, f (f s) = s) : (all.map f).Perm all := by
  have injective {s t : Square} (same : f s = f t) : s = t := by rw [← undo s, same, undo]
  refine (List.perm_ext_iff_of_nodup ?_ nodup_all).2 fun s => iff_of_true ?_ s.mem_all
  · exact List.pairwise_map.2 (nodup_all.imp fun apart same => apart (injective same))
  · exact List.mem_map.2 ⟨f s, (f s).mem_all, undo s⟩

/-- The squares are listed by their numbers. -/
theorem index_getElem_all {i : Nat} (lt : i < all.length) : all[i].index = i := by
  have numbers : all.map index = List.range 64 := by decide
  have number : (all.map index)[i]? = (List.range 64)[i]? := by rw [numbers]
  rw [length_all] at lt
  rw [List.getElem?_map, List.getElem?_eq_getElem lt, List.getElem?_range lt] at number
  exact Option.some.inj number

theorem getElem?_all (s : Square) : all[s.index]? = some s := by
  have lt : s.index < all.length := s.index_lt
  rw [List.getElem?_eq_getElem lt, index_inj.1 (index_getElem_all lt)]

end Square

namespace Board

/-- What stands where on a board that is listed. -/
theorem piece?_ofCells_map (f : Square → Option Piece) (s : Square) :
    (ofCells (Square.all.map f).toArray).piece? s = f s := by
  simp [piece?, ofCells, Square.getElem?_all]

/-- The contents of a board are those that it was made of. -/
theorem map_piece?_ofCells {cells : List (Option Piece)} (full : cells.length = 64) :
    Square.all.map (ofCells cells.toArray).piece? = cells := by
  refine List.ext_getElem (full ▸ rfl) fun i lt lt' => ?_
  rw [List.length_map] at lt
  simp [piece?, ofCells, Square.index_getElem_all lt, List.getElem?_eq_getElem lt']

/-- A board is read back from the list of its contents. -/
theorem ofCells_map_piece? (b : Board) : ofCells (Square.all.map b.piece?).toArray = b :=
  ext_piece fun s => piece?_ofCells_map b.piece? s

end Board

end ChessMachine
