import ChessMachine.Engine.Execute
import ChessMachine.Proofs.Rules.LegalMoves
import ChessMachine.Proofs.Rules.MoveList
import ChessMachine.Proofs.Rules.Movement

/-!
# The moves that an engine shows

An engine shows its legal moves by way of the machine. They are few enough and promote to what
texts can say, so nothing is lost on the way.

## Main results

* `Position.isReadable_of_mem_legalMoves` — legal moves are read back from their text.
* `Engine.shows_legalMoves` — an engine shows the legal moves of its position.
* `MoveList.stream_cases` — which lists of moves survive the machine.
-/
namespace ChessMachine

theorem Move.Promotes.isReadable {m : Move} {c : Color} {kind : PieceKind}
    (promotes : m.Promotes c kind) : m.IsReadable := by
  intro k hk
  rw [Promotes] at promotes
  split at promotes
  · obtain ⟨k', mem, promotion⟩ := promotes
    obtain rfl := Option.some.inj (hk.symm.trans promotion)
    exact mem
  · cases hk.symm.trans promotes

/-- Legal moves promote only to kinds that can be read back. -/
theorem Position.isReadable_of_mem_legalMoves {p : Position} {moves : List Move} {m : Move}
    (legal : p.legalMoves = .ok moves) (mem : m ∈ moves) : m.IsReadable := by
  obtain ⟨kind, -, -, promotes⟩ := mem_pseudoLegalMoves.1 (of_mem_legalMoves legal mem).1
  exact promotes.isReadable

/-- An engine shows the legal moves of its position, or fails as these do. -/
theorem Engine.shows_legalMoves (e : Engine) : e.legalMoves = e.position.legalMoves := by
  rw [legalMoves]
  cases h : e.position.legalMoves with
  | error f => rfl
  | ok moves =>
    have survives : MoveList.stream moves = .ok moves :=
      MoveList.stream_of_length_le (fun m => Position.isReadable_of_mem_legalMoves h)
        (Position.length_le_of_legalMoves h)
    exact Failure.liftM_fault_eq_ok_iff.2 survives

namespace MoveList

open Layout (charBuffer)

/-- A list of moves comes back exactly as it was if its text has at most 1308 characters, and
faults at the end of the memory if it has more. Lists of 218 moves never have more, and so an
engine shows the legal moves of its position. -/
theorem stream_cases {moves : List Move} (readable : ∀ m ∈ moves, m.IsReadable) :
    ((chars moves).length ≤ maxMemory - charBuffer → stream moves = .ok moves) ∧
      (maxMemory - charBuffer < (chars moves).length →
        ∃ ip, stream moves = .error (.addressOutOfRange ip (.ofNat maxMemory) maxMemory)) ∧
      (moves.length ≤ moveCapacity → stream moves = .ok moves) ∧
      ∀ e : Engine, e.legalMoves = e.position.legalMoves :=
  ⟨stream_of_le readable, stream_of_gt, stream_of_length_le readable, Engine.shows_legalMoves⟩

example : maxMemory - charBuffer = 1308 := rfl

/-- Promotions have the longest texts: 218 of them fit into the memory, and one more does not. -/
theorem stream_promotions :
    let m : Move := ⟨⟨.a, .second .black⟩, ⟨.a, .eighth .white⟩, some .queen⟩
    stream (List.replicate 218 m) = .ok (List.replicate 218 m) ∧
      ∃ ip, stream (List.replicate 219 m) = .error (.addressOutOfRange ip 1508 1508) := by
  intro m
  have readable (n : Nat) : ∀ m' ∈ List.replicate n m, m'.IsReadable := by
    intro m' hm'
    rw [List.eq_of_mem_replicate hm']
    intro kind hk
    exact Option.some.inj hk ▸ List.mem_cons_self
  exact ⟨(stream_cases (readable 218)).1 (by decide +kernel),
    (stream_cases (readable 219)).2.1 (by decide +kernel)⟩

end MoveList

end ChessMachine
