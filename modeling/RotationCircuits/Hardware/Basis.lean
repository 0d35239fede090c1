import RotationCircuits.Qubit

/-!
# Native bases

A target runs CX, Z rotations, and rotations around X, around Y, or around both.
-/

namespace RotationCircuits.Hardware

/-- Why a description is not a hardware profile. -/
inductive ProfileError where
  /-- A name that is no native gate of any target. -/
  | unknownGate (name : String)
  /-- Known names that do not make one of the three bases. -/
  | unsupportedBasis (names : List String)
  /-- A register that has neither one nor two qubits. -/
  | unsupportedWidth (width : Nat)
  /-- A gate that takes no time. -/
  | zeroDuration (gate : String)
deriving DecidableEq, Repr

/-- The native rotation axes of a target. -/
inductive Basis where
  | xyz
  | xz
  | yz
deriving DecidableEq, Repr

namespace Basis

/-- Are rotations around this axis native? -/
def contains : Basis → Axis → Bool
  | xyz, _ => true
  | xz, a => a ≠ .y
  | yz, a => a ≠ .x

def gateNames : Basis → List String
  | xyz => ["X", "Y", "Z", "CX"]
  | xz => ["X", "Z", "CX"]
  | yz => ["Y", "Z", "CX"]

/-- A set of gate names in braces. -/
def setText (names : List String) : String := "\x7b" ++ ", ".intercalate names ++ "\x7d"

def text (b : Basis) : String := setText b.gateNames

/-- Is this the name of a native gate of some target? -/
def isGateName (name : String) : Bool := xyz.gateNames.contains name

/-- The basis with a given set of gate names, in any order and with repetitions. -/
def ofGateNames (names : List String) : Except ProfileError Basis :=
  match names.find? fun n => !isGateName n with
  | some n => .error (.unknownGate n)
  | none =>
    match names.contains "X", names.contains "Y", names.contains "Z", names.contains "CX" with
    | true, true, true, true => .ok xyz
    | true, false, true, true => .ok xz
    | false, true, true, true => .ok yz
    | _, _, _, _ => .error (.unsupportedBasis names)

end Basis

def ProfileError.message : ProfileError → String
  | unknownGate n => s!"unknown basis gate '{n}'"
  | unsupportedBasis ns =>
    let bases := ", ".intercalate ([.xyz, .xz, .yz].map Basis.text)
    s!"basis {Basis.setText ns} is not one of {bases}"
  | unsupportedWidth w => s!"number of qubits must be 1 or 2, got {w}"
  | zeroDuration g => s!"duration of '{g}' must be positive"

end RotationCircuits.Hardware
