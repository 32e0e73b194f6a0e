import ChessMachine.Machine.Fault

/-!
# Failures

A computation over positions fails by a fault of the machine or by the overflow of a counter.

## Main definitions

* `Failure` — the two kinds.
-/
namespace ChessMachine

inductive Failure where
  | fault (f : Fault)
  | overflow (o : Overflow)
deriving DecidableEq

namespace Failure

instance : MonadLift (Except Fault) (Except Failure) := ⟨Except.mapError fault⟩

instance : MonadLift (Except Overflow) (Except Failure) := ⟨Except.mapError overflow⟩

def message : Failure → String
  | fault f => f.message
  | overflow o => o.message

end Failure

end ChessMachine
