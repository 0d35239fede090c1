import RotationCircuits.Error

/-!
# One-qubit sequences

A sequence is a list of gates on one qubit in application order. Its net operator is the product of the gates'
operators, the last gate leftmost, with the global phase removed.
-/

namespace RotationCircuits.Sequence

variable {α : Type}

/-- The one qubit that gates act on after `seen`, which is the qubit of the gates before them. -/
def qubitAfter : Option Qubit → List (Gate α) → Except (Error α) (Option Qubit)
  | seen, [] => .ok seen
  | seen, g :: gs =>
    match g.qubit? with
    | none => .error (.notOneQubit g.name)
    | some q =>
      match seen with
      | none => qubitAfter (some q) gs
      | some first => if first = q then qubitAfter seen gs else .error (.mixedQubits first q)

/-- The one qubit that a sequence acts on; none if the sequence is empty. -/
def qubit (gates : List (Gate α)) : Except (Error α) (Option Qubit) := qubitAfter none gates

variable [Scalar α]

/-- The largest imaginary part that is taken as zero after the phase was removed. -/
def phaseTolerance : α := 1e-5

/-- Removes the global phase and checks that the upper left entry has become real. -/
def stripPhase (u : Operator α) : Except (Error α) (Operator α) :=
  let stripped := u.stripPhase
  let im := stripped.u00.im
  if Scalar.isNaN im || decide (phaseTolerance < Scalar.abs im) then .error (.residualPhase im)
  else .ok stripped

/-- The product of the gates' operators, applied after `u`. -/
def product : Operator α → List (Gate α) → Except (Error α) (Operator α)
  | u, [] => .ok u
  | u, g :: gs =>
    match g.operator? with
    | some v => product (v * u) gs
    | none => .error (.notOneQubit g.name)

/-- The net operator of a sequence, without its global phase. -/
def operator (gates : List (Gate α)) : Except (Error α) (Operator α) := do
  let _ ← qubit gates
  stripPhase (← product .identity gates)

end RotationCircuits.Sequence
