import RotationCircuits.Angle
import RotationCircuits.Hardware.Profile
import RotationCircuits.Sequence

/-!
# Euler angles

`Euler.ofOperator` finds the angles of an operator. A general operator is a rotation around X or Y between two rotations
around Z:

    zyz  Z(lambda), Y(theta), Z(phi)
    zxz  Z(lambda - 90), X(theta), Z(phi + 90)

Angles are normalized and zero rotations are left out; when the middle rotation is left out the outer two are added. Of the
renderings that a target runs, `Rendering.select` takes the one with the lower total duration.
-/

namespace RotationCircuits

open Hardware (Profile)

variable {α : Type} [Scalar α]

/-! ## Angles of an operator -/

namespace Euler

/-- A lower left entry shorter than this is taken as zero. -/
def degenerateTolerance : α := 1e-9

/-- The angles of an operator, up to its global phase. The polar angle comes from the lengths of the entries in the first
column, the other two from the phases off the diagonal. Without such entries the operator is a rotation around Z. -/
def ofOperator (u : Operator α) : Except (Error α) (Euler α) := do
  let u ← Sequence.stripPhase u
  if u.u10.norm < degenerateTolerance then
    return ⟨0.0, Scalar.toDegrees u.u11.arg, 0.0⟩
  else
    return ⟨Scalar.toDegrees (2.0 * Scalar.atan2 u.u10.norm u.u00.norm), Scalar.toDegrees u.u10.arg,
      Scalar.toDegrees (-u.u01).arg⟩

end Euler

/-! ## Renderings -/

/-- The two ways to write a general operator as three rotations. -/
inductive Rendering where
  | zxz
  | zyz
deriving DecidableEq, Repr

namespace Rendering

/-- The axis of the middle rotation. -/
def middle : Rendering → Axis
  | zxz => .x
  | zyz => .y

def name : Rendering → String
  | zxz => "ZXZ"
  | zyz => "ZYZ"

/-- A rotation by the normalized angle, or nothing if that is zero. -/
def turn (axis : Axis) (q : Qubit) (angle : α) : List (Gate α) :=
  let a := Angle.normalize angle
  if Angle.isZero a then [] else [.rotation axis q a]

/-- The rotations by `first` around Z, by `mid` around `axis` and by `last` around Z, without zero rotations. -/
def sandwich (axis : Axis) (q : Qubit) (first mid last : α) : List (Gate α) :=
  match turn axis q mid with
  | [] => turn .z q (first + last)
  | gs => turn .z q first ++ gs ++ turn .z q last

/-- The gates of a rendering on a qubit. -/
def gates (r : Rendering) (e : Euler α) (q : Qubit) : List (Gate α) :=
  match r with
  | zxz => sandwich .x q (e.lambda - 90.0) e.theta (e.phi + 90.0)
  | zyz => sandwich .y q e.lambda e.theta e.phi

/-- The rendering that a target runs, with its gates. If both are native the one with the lower total duration is taken, and
`zyz` if the totals are equal. -/
def select (p : Profile) (e : Euler α) (q : Qubit) : Except (Error α) (Rendering × List (Gate α)) :=
  match p.basis.contains .x, p.basis.contains .y with
  | false, false => .error .noRendering
  | false, true => .ok (zyz, zyz.gates e q)
  | true, false => .ok (zxz, zxz.gates e q)
  | true, true => do
    let costX ← p.totalDuration (zxz.gates e q)
    let costY ← p.totalDuration (zyz.gates e q)
    if costX < costY then return (zxz, zxz.gates e q) else return (zyz, zyz.gates e q)

end Rendering

end RotationCircuits
