import ChessMachine.Main
import ChessMachine.Machine.Script
import ChessMachine.Proofs.Arith.Sum
import ChessMachine.Proofs.Text.Words
import ChessMachine.Proofs.Text.Numeral
import ChessMachine.Proofs.Machine.Run
import ChessMachine.Proofs.Machine.Emission
import ChessMachine.Proofs.Machine.Meaning
import ChessMachine.Proofs.Machine.Simulation
import ChessMachine.Proofs.Machine.Compilation
import ChessMachine.Proofs.Machine.Counting
import ChessMachine.Proofs.Machine.Passage
import ChessMachine.Proofs.Machine.Writes
import ChessMachine.Proofs.Machine.Termination
import ChessMachine.Proofs.Machine.Memory
import ChessMachine.Proofs.Board.MoveText
import ChessMachine.Proofs.Board.Playing
import ChessMachine.Proofs.Rules.Snapshot
import ChessMachine.Proofs.Rules.Attack
import ChessMachine.Proofs.Rules.CheckProgram
import ChessMachine.Proofs.Rules.Castling
import ChessMachine.Proofs.Rules.PseudoLegal
import ChessMachine.Proofs.Rules.LegalMoves
import ChessMachine.Proofs.Rules.Sight
import ChessMachine.Proofs.Rules.Movement
import ChessMachine.Proofs.Rules.Detection
import ChessMachine.Proofs.Rules.Soundness
import ChessMachine.Proofs.Rules.Captures
import ChessMachine.Proofs.Rules.MoveList
import ChessMachine.Proofs.Evaluation.Evaluate
import ChessMachine.Proofs.Evaluation.Terms
import ChessMachine.Proofs.Evaluation.Program
import ChessMachine.Proofs.Search.Minimax
import ChessMachine.Proofs.Search.Pruning
import ChessMachine.Proofs.Search.ForcedMate
import ChessMachine.Proofs.Search.BestMove
import ChessMachine.Proofs.Engine.LegalMoves
import ChessMachine.Proofs.Board.Fen
import ChessMachine.Proofs.Board.Count
import ChessMachine.Proofs.Rules.WellFormed
import ChessMachine.Proofs.Evaluation.Bound
import ChessMachine.Proofs.Search.Mate
import ChessMachine.Proofs.Mirror.Board
import ChessMachine.Proofs.Mirror.PseudoLegal
import ChessMachine.Proofs.Mirror.Play
import ChessMachine.Proofs.Rules.Overflow
import ChessMachine.Proofs.Mirror.Perft
import ChessMachine.Proofs.Text.Lines
import ChessMachine.Proofs.Text.Letters
import ChessMachine.Proofs.Machine.Listing
import ChessMachine.Proofs.Machine.Reading
import ChessMachine.Proofs.Board.Letters
import ChessMachine.Proofs.Board.FenGrammar
import ChessMachine.Proofs.Board.FenScan
import ChessMachine.Proofs.Rules.Distinct
import ChessMachine.Proofs.Rules.MoveRules
import ChessMachine.Proofs.Engine.History
import ChessMachine.Proofs.Machine.Uses
import ChessMachine.Proofs.Machine.Scripts
import ChessMachine.Proofs.Rules.MoveSequences
import ChessMachine.Proofs.Evaluation.HalfTurn
import ChessMachine.Proofs.Search.OnePly
import ChessMachine.Proofs.Machine.Access
import ChessMachine.Proofs.Rules.Clocks
import ChessMachine.Proofs.Search.Counters
import ChessMachine.Proofs.Text.Utf8
import ChessMachine.Proofs.Training.Game
import ChessMachine.Proofs.Training.Dataset
import ChessMachine.Proofs.Engine.Arguments
import ChessMachine.Proofs.Board.MoveReading
import ChessMachine.Proofs.Training.Learning
