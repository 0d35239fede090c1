import RotationCircuits.Circuit
import RotationCircuits.Sequence.Optimize

/-!
# Runs between CX gates

A CX ends the current run of each of its qubits. Gates on one qubit wait until their run ends, and then the optimized run
is put out; at the end of the circuit the runs that are left follow in the order of their qubits.
-/

namespace RotationCircuits.Run

open Hardware (Profile)

variable {α : Type}

/-- Gates put out so far, and gates whose runs have not ended, in the order in which they came. -/
structure Progress (α : Type) where
  done : List (Gate α)
  waiting : List (Gate α)
deriving DecidableEq, Repr

/-- Is this a one-qubit gate on the given qubit? -/
def isOn (q : Qubit) (g : Gate α) : Bool := g.qubit? = some q

/-- Inserts a qubit in the order of indices. -/
def insertQubit (q : Qubit) : List Qubit → List Qubit
  | [] => [q]
  | p :: ps => if q.index ≤ p.index then q :: p :: ps else p :: insertQubit q ps

/-- Qubits in the order of their indices. -/
def sortQubits (qs : List Qubit) : List Qubit := qs.foldr insertQubit []

variable [Scalar α]

/-- Ends the run of a qubit. -/
def flush (p : Profile) (s : Progress α) (q : Qubit) : Except (Error α) (Progress α) := do
  let out ← Sequence.optimize p (s.waiting.filter (isOn q))
  return ⟨s.done ++ out, s.waiting.filter fun g => !isOn q g⟩

/-- Takes in the next gate. -/
def step (p : Profile) (s : Progress α) (g : Gate α) : Except (Error α) (Progress α) :=
  match g with
  | .cx c t => do
    let s ← flush p (← flush p s c) t
    return { s with done := s.done ++ [g] }
  | g => .ok { s with waiting := s.waiting ++ [g] }

/-- Ends all runs that are left. -/
def finish (p : Profile) (s : Progress α) : Except (Error α) (List (Gate α)) := do
  return (← (sortQubits (s.waiting.filterMap Gate.qubit?)).foldlM (flush p) s).done

/-- The gates with every run optimized. -/
def optimizeGates (p : Profile) (gates : List (Gate α)) : Except (Error α) (List (Gate α)) := do
  finish p (← gates.foldlM (step p) ⟨[], []⟩)

/-- The circuit with every run optimized. -/
def optimizeCircuit (p : Profile) (c : Circuit α) : Except (Error α) (Circuit α) := do
  p.checkWidth c.width
  match Circuit.ofGates c.width (← optimizeGates p c.gates) with
  | .ok c => return c
  | .error e => throw (.circuit e)

end RotationCircuits.Run
