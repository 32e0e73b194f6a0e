import ChessMachine.Text.Quoted

/-!
# Errors of chess notation

What can be wrong with a text that should name a square, a piece, a move or a position.

## Main definitions

* `NotationError` — the causes.
* `NotationError.message` — their wording.
-/
namespace ChessMachine

inductive NotationError where
  | fileChar (c : Char)
  | fileIndex (index : Nat)
  | rankChar (c : Char)
  | rankIndex (index : Nat)
  | squareIndex (index : Nat)
  | squareLength (text : String)
  | colorChar (c : Char)
  | kindChar (c : Char)
  | pieceLength (text : String)
  | moveLength (text : String)
  | promotionKind (kind text : String)
  | castlingChar (text : String) (c : Char)
  | fenEmpty
  | fenRanks
  /-- A row that describes more than eight squares. -/
  | fenCrowdedRank (rank : Char) (row : String)
  /-- A row that describes fewer than eight squares. -/
  | fenShortRank (rank : Char) (row : String)
  | fenColor (text : String)
  | fenHalfmove (text : String)
  | fenFullmove (text : String)
  | fenTrailing (text : String)
deriving DecidableEq

namespace NotationError

open Text (quoted quotedChar)

def message : NotationError → String
  | fileChar c => s!"Invalid char for File: Must be between [a, h]. Got {c}"
  | fileIndex index => s!"Invalid int for File: Must be between [0, 7]. Got {index}"
  | rankChar c => s!"Invalid char for Rank: Must be between [1, 8]. Got {c}"
  | rankIndex index => s!"Invalid int for Rank: Must be between [0, 7]. Got {index}"
  | squareIndex index => s!"Invalid index for Square: Must be between [0, 63]. Got {index}"
  | squareLength text =>
    s!"Invalid Square string: String must contain exactly 2 characters. Got {quoted text}"
  | colorChar c => s!"Color must be either 'w' or 'b' (case-insensitive). Found {c}"
  | kindChar c =>
    s!"Invalid char for PieceKind: Must be one of [p, n, b, r, q, k]. Got {quotedChar c}"
  | pieceLength text => s!"Invalid str for Piece: Must be a str of len 1. Got {quoted text}"
  | moveLength text => s!"Move strings must be 4 or 5 ASCII characters. Got {quoted text}"
  | promotionKind kind text => s!"Cannot promote to a {kind}. Got {quoted text}"
  | castlingChar text c =>
    s!"Invalid castling rights {quoted text}: unexpected char {quotedChar c}"
  | fenEmpty => "FEN string must have piece placements."
  | fenRanks => "FEN must have piece placements for all 8 ranks"
  | fenCrowdedRank rank row => s!"FEN rank {rank} has more than 8 files: {quoted row}"
  | fenShortRank rank row => s!"FEN rank {rank} must describe exactly 8 files. Got {quoted row}"
  | fenColor text => s!"FEN active color must be 'w' or 'b'. Got {quoted text}"
  | fenHalfmove text => s!"FEN string must have valid halfmove counter. Got {quoted text}"
  | fenFullmove text => s!"FEN string must have valid fullmove counter. Got {quoted text}"
  | fenTrailing text => s!"FEN string has unexpected trailing field {quoted text}"

end NotationError

end ChessMachine
