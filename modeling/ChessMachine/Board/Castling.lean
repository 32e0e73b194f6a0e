import ChessMachine.Board.Square

/-!
# Castling rights

Each colour may hold the right to castle short, towards the `h` file, and long, towards the `a`
file.

## Main definitions

* `Wing` — short or long.
* `CastlingRights` — any set of the four rights.
* `CastlingRights.union`, `CastlingRights.remove`, `CastlingRights.contains`.
* `CastlingRights.revokedBy` — the rights lost when a piece leaves or reaches a square.
* `CastlingRights.text`, `CastlingRights.ofText` — the letters `KQkq` or a hyphen.
-/
namespace ChessMachine

inductive Wing where
  | short
  | long
deriving DecidableEq

namespace Wing

def all : List Wing := [short, long]

def rookFile : Wing → File
  | short => .h
  | long => .a

def kingTarget : Wing → File
  | short => .g
  | long => .c

/-- The file on which the rook arrives, which the king crosses. -/
def rookTarget : Wing → File
  | short => .f
  | long => .d

/-- The files between king and rook. -/
def between : Wing → List File
  | short => [.f, .g]
  | long => [.b, .c, .d]

end Wing

namespace File

def kingHome : File := e

end File

structure CastlingRights where
  whiteShort : Bool := false
  whiteLong : Bool := false
  blackShort : Bool := false
  blackLong : Bool := false
deriving DecidableEq

namespace CastlingRights

def empty : CastlingRights := {}

def holds (r : CastlingRights) : Color → Wing → Bool
  | .white, .short => r.whiteShort
  | .white, .long => r.whiteLong
  | .black, .short => r.blackShort
  | .black, .long => r.blackLong

/-- The set of the rights that satisfy `f`. -/
def ofFn (f : Color → Wing → Bool) : CastlingRights :=
  ⟨f .white .short, f .white .long, f .black .short, f .black .long⟩

@[simp] theorem holds_ofFn (f : Color → Wing → Bool) (c : Color) (w : Wing) :
    (ofFn f).holds c w = f c w := by cases c <;> cases w <;> rfl

@[ext] theorem ext_holds {r s : CastlingRights} (h : ∀ c w, r.holds c w = s.holds c w) : r = s := by
  cases r; cases s
  have h₁ := h .white .short
  have h₂ := h .white .long
  have h₃ := h .black .short
  have h₄ := h .black .long
  simp_all [holds]

def single (c : Color) (w : Wing) : CastlingRights := ofFn fun d v => d = c && v = w

def both (c : Color) : CastlingRights := ofFn fun d _ => d = c

def union (r s : CastlingRights) : CastlingRights := ofFn fun c w => r.holds c w || s.holds c w

def remove (r s : CastlingRights) : CastlingRights := ofFn fun c w => r.holds c w && !s.holds c w

def contains (r s : CastlingRights) : Bool := r.union s = r

def isEmpty (r : CastlingRights) : Bool := r = empty

/-- The rights that depend on what stands on a square, which only the home squares of kings and
rooks do. -/
def revokedBy (s : Square) : CastlingRights :=
  ofFn fun c w => s.rank = Rank.first c && (s.file = File.kingHome || s.file = w.rookFile)

def letter : Color → Wing → Char
  | .white, .short => 'K'
  | .white, .long => 'Q'
  | .black, .short => 'k'
  | .black, .long => 'q'

/-- Each right in the order in which it is written. -/
def order : List (Color × Wing) := Color.all.flatMap fun c => Wing.all.map fun w => (c, w)

def chars (r : CastlingRights) : List Char :=
  match (order.filter fun (c, w) => r.holds c w).map fun (c, w) => letter c w with
  | [] => ['-']
  | letters => letters

def text (r : CastlingRights) : String := String.ofList r.chars

instance : ToString CastlingRights := ⟨text⟩

/-- Reads letters in any order and number; `whole` is the text they are part of. -/
def ofLetters (whole : String) : List Char → Except NotationError CastlingRights
  | [] => .ok empty
  | c :: rest =>
    match order.find? fun (color, wing) => letter color wing == c with
    | some (color, wing) => do return (single color wing).union (← ofLetters whole rest)
    | none => .error (.castlingChar whole c)

def ofText (text : String) : Except NotationError CastlingRights :=
  if text = "-" then .ok empty else ofLetters text text.toList

/-- The four rights as binary digits, White's short one last. -/
def digits (r : CastlingRights) : String :=
  String.ofList (order.reverse.map fun (c, w) => if r.holds c w then '1' else '0')

def describe (r : CastlingRights) : String := s!"{r.text} ({r.digits})"

end CastlingRights

end ChessMachine
