import ChessMachine.Text.Lines

/-!
# Lines

A text has its lines in one way only, and lines that are ended by line feeds are found again.

## Main definitions

* `Text.IsLine` — a line holds no line feed and does not end in a carriage return.
* `Text.Broken` — how lines and their ends make up a text.

## Main results

* `Text.lines_flatMap` — the lines of a text that was written line by line.
* `Text.lines_eq_iff` — which lines a text has.
-/
namespace ChessMachine.Text

variable {α : Type} [DecidableEq α] {lf cr : α} {line text : List α} {ls : List (List α)}

/-- Without a line feed, and without a last carriage return, which would go with the line feed. -/
structure IsLine (lf cr : α) (line : List α) : Prop where
  unbroken : lf ∉ line
  bare : line.getLast? ≠ some cr

/-- What a line feed ends is a line, without a carriage return right before it. -/
theorem lines_append_cons (unbroken : lf ∉ line) (text : List α) :
    lines lf cr (line ++ lf :: text) = dropReturn cr line :: lines lf cr text := by
  rw [lines, List.splitOn_append_cons_self_of_not_mem unbroken, closeLines]
  · rfl
  · exact List.splitOn_ne_nil lf _

/-- Lines that are ended by line feeds are found again. -/
theorem lines_flatMap (h : ∀ line ∈ ls, IsLine lf cr line) :
    lines lf cr (ls.flatMap (· ++ [lf])) = ls := by
  induction ls with
  | nil => rfl
  | cons line rest ih =>
    obtain ⟨first, later⟩ := List.forall_mem_cons.1 h
    rw [List.flatMap_cons, List.append_assoc, List.singleton_append,
      lines_append_cons first.unbroken, dropReturn, if_neg first.bare, ih later]

/-- A text that consists of lines, in this order. A line ends at a line feed, and a carriage return
before that belongs to the end; a last line that is not empty may lack its end. -/
inductive Broken (lf cr : α) : List α → List (List α) → Prop where
  | nil : Broken lf cr [] []
  | last {line : List α} (some : line ≠ []) (unbroken : lf ∉ line) : Broken lf cr line [line]
  | feed {line text : List α} {ls : List (List α)} (isLine : IsLine lf cr line)
    (rest : Broken lf cr text ls) : Broken lf cr (line ++ lf :: text) (line :: ls)
  | returnFeed {line text : List α} {ls : List (List α)} (unbroken : lf ∉ line)
    (rest : Broken lf cr text ls) : Broken lf cr (line ++ cr :: lf :: text) (line :: ls)

/-- Whatever ends its lines, a text is split into them. -/
theorem lines_eq_of_broken (apart : cr ≠ lf) (h : Broken lf cr text ls) :
    lines lf cr text = ls := by
  induction h with
  | nil => rfl
  | @last line some unbroken =>
    have nonempty : line.isEmpty = false := List.isEmpty_eq_false_iff.2 some
    rw [lines, List.splitOn_eq_singleton unbroken, closeLines, nonempty]
    rfl
  | feed isLine _ ih => rw [lines_append_cons isLine.unbroken, dropReturn, if_neg isLine.bare, ih]
  | @returnFeed line text _ unbroken _ ih =>
    have whole : lf ∉ line ++ [cr] := by simp [unbroken, apart.symm]
    have dropped : dropReturn cr (line ++ [cr]) = line := by simp [dropReturn]
    rw [List.append_cons, lines_append_cons whole, dropped, ih]

/-- Every text consists of lines. -/
theorem exists_broken (lf cr : α) (text : List α) : ∃ ls, Broken lf cr text ls := by
  -- by induction on the length, since the rest after a line feed is shorter
  induction h : text.length using Nat.strongRecOn generalizing text with
  | ind n ih =>
    by_cases more : lf ∈ text
    · obtain ⟨line, rest, rfl, unbroken⟩ := List.eq_append_cons_of_mem more
      obtain ⟨ls, broken⟩ := ih rest.length (by simp [← h]; omega) rest rfl
      by_cases ended : line.getLast? = some cr
      · obtain ⟨front, rfl⟩ := List.getLast?_eq_some_iff.1 ended
        rw [← List.append_cons]
        exact ⟨front :: ls, .returnFeed (fun mem => unbroken (by simp [mem])) broken⟩
      · exact ⟨line :: ls, .feed ⟨unbroken, ended⟩ broken⟩
    · by_cases empty : text = []
      · exact ⟨[], empty ▸ .nil⟩
      · exact ⟨[text], .last empty more⟩

/-- The lines of a text are those that make it up. -/
theorem lines_eq_iff (apart : cr ≠ lf) : lines lf cr text = ls ↔ Broken lf cr text ls := by
  refine ⟨?_, lines_eq_of_broken apart⟩
  rintro rfl
  obtain ⟨ls, broken⟩ := exists_broken lf cr text
  exact lines_eq_of_broken apart broken ▸ broken

end ChessMachine.Text
