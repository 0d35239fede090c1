import RotationCircuits.PairOperator
import RotationCircuits.Qubit

/-!
# Gates

Rotations of one qubit, the general one-qubit gate, and CX. Angles are in degrees. A gate is a plain value and may be
invalid: `Gate.validate` says whether its angles are finite and its CX pair is one of `(0, 1)` and `(1, 0)`.
-/

namespace RotationCircuits

/-- What can be wrong with a gate or a circuit. -/
inductive CircuitError (α : Type) where
  /-- A CX on a pair other than `(0, 1)` and `(1, 0)`. -/
  | unsupportedPair (control target : Qubit)
  /-- A qubit beyond the register, with the name of the gate that needs it if there is one. -/
  | qubitOutOfRange (qubit : Qubit) (width : Nat) (gate : Option String)
  /-- A register that has neither one nor two qubits. -/
  | unsupportedWidth (width : Nat)
  /-- An angle that is infinite or not a number. -/
  | nonFiniteAngle (gate : String) (angle : α)
deriving DecidableEq, Repr

/-- A gate on one or two qubits. -/
inductive Gate (α : Type) where
  /-- Rotation around an axis. -/
  | rotation (axis : Axis) (qubit : Qubit) (angle : α)
  /-- Controlled X. -/
  | cx (control target : Qubit)
  /-- The general gate `U(theta, phi, lambda)`. -/
  | general (qubit : Qubit) (angles : Euler α)
deriving BEq, DecidableEq, Repr

namespace Gate

variable {α : Type}

def name : Gate α → String
  | rotation a .. => a.name
  | cx .. => "CX"
  | general .. => "UOne"

/-- The qubits of a gate, the control first. -/
def qubits : Gate α → List Qubit
  | rotation _ q _ => [q]
  | cx c t => [c, t]
  | general q _ => [q]

/-- The qubit of a one-qubit gate. -/
def qubit? : Gate α → Option Qubit
  | rotation _ q _ => some q
  | cx .. => none
  | general q _ => some q

def isCx : Gate α → Bool
  | cx .. => true
  | _ => false

def isGeneral : Gate α → Bool
  | general .. => true
  | _ => false

def axis? : Gate α → Option Axis
  | rotation a .. => some a
  | _ => none

def angle? : Gate α → Option α
  | rotation _ _ θ => some θ
  | _ => none

/-- The same rotation by another angle; other gates are left as they are. -/
def withAngle (g : Gate α) (angle : α) : Gate α :=
  match g with
  | rotation a q _ => rotation a q angle
  | g => g

def angles : Gate α → List α
  | rotation _ _ θ => [θ]
  | cx .. => []
  | general _ e => [e.theta, e.phi, e.lambda]

/-- The pairs on which a CX can act: `(0, 1)` and `(1, 0)`. -/
def IsPair (control target : Qubit) : Prop :=
  (control.index = 0 ∧ target.index = 1) ∨ (control.index = 1 ∧ target.index = 0)

instance (control target : Qubit) : Decidable (IsPair control target) := inferInstanceAs (Decidable (_ ∨ _))

/-- The CX gate on a supported pair of qubits. -/
def checkedCx (control target : Qubit) : Except (CircuitError α) (Gate α) :=
  if IsPair control target then .ok (cx control target) else .error (.unsupportedPair control target)

theorem checkedCx_eq_ok_iff {c t : Qubit} {g : Gate α} : checkedCx c t = .ok g ↔ IsPair c t ∧ g = cx c t := by
  unfold checkedCx
  split
  · rename_i h
    simp [h, eq_comm]
  · rename_i h
    simp [h]

/-- Checks the pair of a CX. -/
def checkPair : Gate α → Except (CircuitError α) Unit
  | cx c t => discard (checkedCx c t)
  | _ => .ok ()

theorem qubits_of_qubit? {g : Gate α} {q : Qubit} (h : g.qubit? = some q) : g.qubits = [q] := by
  cases g <;> simp_all [qubit?, qubits]

variable [Scalar α]

/-- Checks that the angles are finite and that a CX has a supported pair. The first angle that is not finite is
reported. -/
def validate (g : Gate α) : Except (CircuitError α) Unit :=
  match g with
  | cx c t => if IsPair c t then .ok () else .error (.unsupportedPair c t)
  | g =>
    match g.angles.find? fun a => !Scalar.isFinite a with
    | some angle => .error (.nonFiniteAngle g.name angle)
    | none => .ok ()

/-- Does the gate pass `validate`? -/
def isValid (g : Gate α) : Bool :=
  match g.validate with
  | .ok _ => true
  | .error _ => false

theorem isValid_iff {g : Gate α} : g.isValid = true ↔ g.validate = .ok () := by
  unfold isValid
  cases g.validate <;> simp

theorem validate_cx_iff {c t : Qubit} : (cx c t : Gate α).validate = .ok () ↔ IsPair c t := by
  unfold validate
  split <;> simp_all

theorem validate_eq_ok_iff {g : Gate α} (h : ∀ c t, g ≠ cx c t) :
    g.validate = .ok () ↔ ∀ a ∈ g.angles, Scalar.isFinite a = true := by
  cases g with
  | cx c t => exact absurd rfl (h c t)
  | rotation a q θ => cases hθ : Scalar.isFinite θ <;> simp [validate, angles, hθ]
  | general q e =>
    cases h₁ : Scalar.isFinite e.theta <;> cases h₂ : Scalar.isFinite e.phi <;>
      cases h₃ : Scalar.isFinite e.lambda <;> simp [validate, angles, h₁, h₂, h₃]

theorem validate_rotation_iff {a : Axis} {q : Qubit} {θ : α} :
    (rotation a q θ).validate = .ok () ↔ Scalar.isFinite θ = true := by
  rw [validate_eq_ok_iff (fun c t h => by cases h), angles, List.forall_mem_singleton]

/-- The pair of a valid CX is not rejected. -/
theorem checkPair_of_validate {g : Gate α} (h : g.validate = .ok ()) : g.checkPair = .ok () := by
  cases g with
  | cx c t =>
    rw [checkPair, checkedCx, if_pos (validate_cx_iff.1 h)]
    rfl
  | rotation a q θ => rfl
  | general q e => rfl

/-- The operator of a one-qubit gate. -/
def operator? : Gate α → Option (Operator α)
  | rotation .x _ θ => some (.rx (Scalar.toRadians θ))
  | rotation .y _ θ => some (.ry (Scalar.toRadians θ))
  | rotation .z _ θ => some (.rz (Scalar.toRadians θ))
  | cx .. => none
  | general _ e => some e.operator

/-- The operator of a CX gate. Only the control is looked at. -/
def pairOperator? : Gate α → Option (PairOperator α)
  | cx c _ => some (if c.index = 0 then .cx01 else .cx10)
  | _ => none

end Gate

end RotationCircuits
