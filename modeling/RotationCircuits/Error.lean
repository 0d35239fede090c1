import RotationCircuits.Gate.Text
import RotationCircuits.Hardware.Basis

/-!
# Compilation errors
-/

namespace RotationCircuits

/-- Why a compilation step fails. -/
inductive Error (α : Type) where
  /-- A gate or a circuit is wrong. -/
  | circuit (error : CircuitError α)
  /-- The upper left entry of an operator is not real after its phase was removed. -/
  | residualPhase (imaginary : α)
  /-- The target has neither X nor Y rotations. -/
  | noRendering
  /-- A description is not a hardware profile. -/
  | profile (error : Hardware.ProfileError)
  /-- A description is not readable at all. -/
  | unreadableProfile
  /-- A gate on two qubits in a one-qubit sequence. -/
  | notOneQubit (gate : String)
  /-- A one-qubit sequence on two qubits. -/
  | mixedQubits (first second : Qubit)
  /-- A gate that the target cannot run. -/
  | notNative (gate : Gate α)
  /-- A gate that has no duration. -/
  | untimed (gate : String)
  /-- A circuit wider than the target. -/
  | tooWide (required available : Nat)
deriving DecidableEq, Repr

def Error.message : Error Float → String
  | circuit e => s!"IR error: {e.message}"
  | residualPhase im =>
    s!"Numerical inconsistency: [0, 0] entry has imaginary part {Decimal.exponential im} after phase removal"
  | noRendering => "Unreachable hardware state: neither X nor Y rotations are native"
  | profile e => s!"Invalid hardware profile: {e.message}"
  | unreadableProfile => "Configuration error: not a hardware description"
  | notOneQubit g => s!"Gate '{g}' is not a single-qubit gate"
  | mixedQubits p q => s!"Sequence mixes qubits {p.text} and {q.text}"
  | notNative g => s!"Gate '{g.text}' not in target basis"
  | untimed g => s!"Gate '{g}' not in target basis"
  | tooWide r a => s!"Circuit requires {r} qubits but target only has {a}"

end RotationCircuits
