/-!
# Scalars

Angles and amplitudes are computed in one kind of number, the *scalar*. The class `Scalar` names the operations that the
library uses and asks for no laws, so every definition built on it can be run on machine doubles
(`RotationCircuits.Binary64`) and read over the real numbers, where the laws hold.
-/

namespace RotationCircuits

/-- The arithmetic of angles and amplitudes, without laws. Literals come from `OfScientific`. -/
class Scalar (α : Type) extends Add α, Sub α, Mul α, Div α, Neg α, LT α, OfScientific α where
  /-- Strict comparison can be decided; every comparison with a value that is not a number fails. -/
  decidableLT : DecidableLT α
  /-- Absolute value. -/
  abs : α → α
  /-- Square root. -/
  sqrt : α → α
  /-- Sine of an angle in radians. -/
  sin : α → α
  /-- Cosine of an angle in radians. -/
  cos : α → α
  /-- `atan2 y x` is the angle of the point `(x, y)`, in radians. -/
  atan2 : α → α → α
  /-- Length of the hypotenuse. -/
  hypot : α → α → α
  /-- Remainder of the division rounded toward zero: exact, with the sign of the dividend. -/
  rem : α → α → α
  /-- Half a turn in radians. -/
  pi : α
  /-- Neither infinite nor without a value. -/
  isFinite : α → Bool
  /-- Without a value. -/
  isNaN : α → Bool

namespace Scalar

instance {α : Type} [Scalar α] : DecidableLT α := Scalar.decidableLT

variable {α : Type} [Scalar α]

/-- Degrees to radians; the factor is computed first. -/
def toRadians (x : α) : α := x * (pi / 180.0)

/-- Radians to degrees; the factor is computed first. -/
def toDegrees (x : α) : α := x * (180.0 / pi)

end Scalar

end RotationCircuits
