import Mathlib.Data.Nat.Notation

/-!
# Common types

Identifiers, enumerations and the ways a call can be left other than by
returning.  Ids are unbounded naturals: nothing below depends on the 64-bit
width of the source's counters.
-/

namespace Q2NS

/-- How a call ends when it does not return: a C++ exception, which the caller
can catch, or the end of the process (a failed assertion, `NS_ABORT_MSG_IF`, or
an access outside an allocated container). -/
inductive Exit where
  | thrown (what : String)
  | aborted (what : String)
  deriving DecidableEq, Repr

/-- Measurement basis for a single-qubit projective measurement. -/
inductive Basis where
  | Z
  | X
  | Y
  deriving DecidableEq, Repr

/-- Backend family used when creating new quantum states. -/
inductive QStateBackend where
  | Ket
  | DM
  | Stab
  deriving DecidableEq, Repr

abbrev StateId := ℕ
abbrev QubitId := ℕ
abbrev NodeId := ℕ
abbrev ChannelId := ℕ

/-- Current tracked location of a qubit; the owner id is kept only where it has
a meaning. -/
inductive Location where
  | node (ownerId : NodeId)
  | channel (ownerId : ChannelId)
  | lost
  | unset
  deriving DecidableEq, Repr

/-- The built-in gate kinds and `Custom`. -/
inductive QGateKind where
  | Custom
  | I
  | X
  | Y
  | Z
  | H
  | S
  | SDG
  | CNOT
  | CZ
  | SWAP
  deriving DecidableEq, Repr

/-- Number of qubits a built-in gate acts on. -/
def QGateKind.arity : QGateKind → ℕ
  | .CNOT | .CZ | .SWAP => 2
  | _ => 1

end Q2NS
