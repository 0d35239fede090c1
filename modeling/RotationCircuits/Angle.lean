import RotationCircuits.Scalar

/-!
# Angles in degrees

An angle counts up to whole turns. `normalize` picks its representative in `(-180, 180]`; `isZero` and `isNear` compare
with a fixed tolerance.
-/

namespace RotationCircuits.Angle

variable {α : Type} [Scalar α]

/-- Angles closer than this, in degrees, are taken as equal. -/
def tolerance : α := 1e-9

/-- The angle reduced by whole turns to at least zero. Below zero a turn is added to the exact remainder, and that sum is
rounded, so a tiny negative angle becomes a whole turn. -/
def wrap (angle : α) : α :=
  let r := Scalar.rem angle 360.0
  if r < 0.0 then r + 360.0 else r

/-- The representative of an angle in `(-180, 180]`. -/
def normalize (angle : α) : α :=
  let r := wrap angle
  if 180.0 < r then r - 360.0 else r

/-- Is the angle a whole number of turns? -/
def isZero (angle : α) : Bool :=
  let r := wrap angle
  decide (r < tolerance) || decide (360.0 - r < tolerance)

/-- Is the angle the target itself? Whole turns are not removed. -/
def isNear (angle target : α) : Bool :=
  decide (Scalar.abs (angle - target) < tolerance)

end RotationCircuits.Angle
