/-!
# Splitting arguments into commands

The arguments of a program run together the words of several commands. The longest run of words
that reads as a command is taken, and reading goes on behind it. A word that starts no command is
passed over.

## Main definitions

* `Reading` — what a run of words reads as.
* `Slice` — a part of the arguments and what was made of it.
* `Slice.split` — the parts, for any way to read a run.
-/
namespace ChessMachine

/-- What a run of words reads as. -/
inductive Reading (α : Type) where
  | command (a : α)
  | help
  | rejected

inductive Slice (α : Type) where
  | command (words : List String) (a : α)
  | help (words : List String)
  | skipped (word : String)

namespace Slice

variable {α : Type}

def words : Slice α → List String
  | command words _ => words
  | help words => words
  | skipped word => [word]

/-- What is made of a run that is not rejected. -/
def ofRun? (read : List String → Reading α) (run : List String) : Option (Slice α) :=
  match read run with
  | .command a => some (command run a)
  | .help => some (help run)
  | .rejected => none

/-- Reads the run of `first` and the next `more` words or, if that is rejected, a shorter one. The
result says how many words after `first` were taken. -/
def longest? (read : List String → Reading α) (first : String) (rest : List String) :
    (more : Nat) → Option (Slice α × Nat)
  | 0 => (ofRun? read [first]).map fun slice => (slice, 0)
  | more + 1 =>
    match ofRun? read (first :: rest.take (more + 1)) with
    | some slice => some (slice, more + 1)
    | none => longest? read first rest more

/-- Takes the longest run that is not rejected, over and over. -/
def split (read : List String → Reading α) : List String → List (Slice α)
  | [] => []
  | first :: rest =>
    match longest? read first rest rest.length with
    | some (slice, more) => slice :: split read (rest.drop more)
    | none => skipped first :: split read rest
termination_by words => words.length
decreasing_by
  · simp only [List.length_drop, List.length_cons]
    omega
  · simp

end Slice

end ChessMachine
