import RotationCircuits.Amplitude

/-!
# Operators on one qubit

Two by two matrices of amplitudes: the rotations, the general operator `U(theta, phi, lambda)`, products, and comparison
up to a global phase. Angles here are in radians.
-/

namespace RotationCircuits

/-- A two by two matrix, `uRC` standing in row `R` and column `C`. -/
structure Operator (α : Type) where
  u00 : Amplitude α
  u01 : Amplitude α
  u10 : Amplitude α
  u11 : Amplitude α
deriving BEq, DecidableEq, Repr

namespace Operator

variable {α : Type} [Scalar α]

/-- Tolerance of the comparison with the identity. -/
def tolerance : α := 1e-10

def identity : Operator α := ⟨.one, .zero, .zero, .one⟩

def rx (angle : α) : Operator α :=
  let c := Scalar.cos (angle / 2.0)
  let s := Scalar.sin (angle / 2.0)
  ⟨⟨c, 0.0⟩, ⟨0.0, -s⟩, ⟨0.0, -s⟩, ⟨c, 0.0⟩⟩

def ry (angle : α) : Operator α :=
  let c := Scalar.cos (angle / 2.0)
  let s := Scalar.sin (angle / 2.0)
  ⟨⟨c, 0.0⟩, ⟨-s, 0.0⟩, ⟨s, 0.0⟩, ⟨c, 0.0⟩⟩

def rz (angle : α) : Operator α :=
  ⟨.polar 1.0 (-angle / 2.0), .zero, .zero, .polar 1.0 (angle / 2.0)⟩

/-- The general operator `U(theta, phi, lambda)`, whose upper left entry is real. -/
def general (theta phi lambda : α) : Operator α :=
  let c := Scalar.cos (theta / 2.0)
  let s := Scalar.sin (theta / 2.0)
  ⟨⟨c, 0.0⟩, -.polar s lambda, .polar s phi, .polar c (phi + lambda)⟩

/-- The entries, row by row. -/
def entries (u : Operator α) : List (Amplitude α) := [u.u00, u.u01, u.u10, u.u11]

def mul (u v : Operator α) : Operator α where
  u00 := u.u00 * v.u00 + u.u01 * v.u10
  u01 := u.u00 * v.u01 + u.u01 * v.u11
  u10 := u.u10 * v.u00 + u.u11 * v.u10
  u11 := u.u10 * v.u01 + u.u11 * v.u11

instance : Mul (Operator α) := ⟨mul⟩

@[simp] theorem mul_u00 (u v : Operator α) : (u * v).u00 = u.u00 * v.u00 + u.u01 * v.u10 := rfl

@[simp] theorem mul_u01 (u v : Operator α) : (u * v).u01 = u.u00 * v.u01 + u.u01 * v.u11 := rfl

@[simp] theorem mul_u10 (u v : Operator α) : (u * v).u10 = u.u10 * v.u00 + u.u11 * v.u10 := rfl

@[simp] theorem mul_u11 (u v : Operator α) : (u * v).u11 = u.u10 * v.u01 + u.u11 * v.u11 := rfl

/-- Every entry times a factor. -/
def scale (u : Operator α) (factor : Amplitude α) : Operator α :=
  ⟨u.u00 * factor, u.u01 * factor, u.u10 * factor, u.u11 * factor⟩

/-- Conjugate transpose. -/
def dagger (u : Operator α) : Operator α := ⟨u.u00.conj, u.u10.conj, u.u01.conj, u.u11.conj⟩

/-- Sum of the diagonal. -/
def trace (u : Operator α) : Amplitude α := u.u00 + u.u11

/-- Frobenius norm of `u† u - 1`. -/
def unitarityError (u : Operator α) : α :=
  let p := u.dagger * u
  Scalar.sqrt (0.0 + (p.u00 - .one).normSq + (p.u01 - .zero).normSq + (p.u10 - .zero).normSq +
    (p.u11 - .one).normSq)

/-- Is `u† u` the identity within a bound? -/
def isUnitary (u : Operator α) (bound : α) : Bool := decide (u.unitarityError < bound)

/-- Are two operators equal up to a global phase? Of unitary operators the overlap `|tr (u† v)|` is 2 exactly then. -/
def equivUpToPhase (u v : Operator α) (bound : α) : Bool :=
  decide (Scalar.abs ((u.dagger * v).trace.norm - 2.0) < bound)

/-- Is this the identity up to a global phase? -/
def isIdentity (u : Operator α) : Bool := u.equivUpToPhase identity tolerance

/-- Divides by the phase of the upper left entry, which becomes real and not negative. The phase of zero is zero. -/
def stripPhase (u : Operator α) : Operator α := u.scale (.polar 1.0 (-u.u00.arg))

end Operator

/-- The angles of a general one-qubit operator, in degrees. Every unitary operator on one qubit is such an operator up to a
global phase. -/
structure Euler (α : Type) where
  theta : α
  phi : α
  lambda : α
deriving BEq, DecidableEq, Repr

def Euler.operator {α : Type} [Scalar α] (e : Euler α) : Operator α :=
  .general (Scalar.toRadians e.theta) (Scalar.toRadians e.phi) (Scalar.toRadians e.lambda)

end RotationCircuits
