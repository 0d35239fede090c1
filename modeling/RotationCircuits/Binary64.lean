import RotationCircuits.Scalar

/-!
# Doubles as scalars

The two operations that `Float` lacks are defined on unpacked doubles, `sign * mantissa * 2 ^ exponent`: the remainder is
exact, and the hypotenuse is the root of the exact sum of squares, rounded once.
-/

namespace RotationCircuits.Binary64

open Float.Model (UnpackedFloat)

/-- The double nearest to `sign * mantissa * 2 ^ exponent`. -/
def ofParts (sign : UnpackedFloat.Sign) (mantissa : Nat) (exponent : Int) : Float :=
  .ofModel (.pack (.round .binary64 sign mantissa exponent))

def nan : Float := .ofModel (.pack .notANumber)

def infinity : Float := .ofModel (.pack (.infinity .positive))

/-- Does the double have the sign bit? Zero may have it, too. -/
def isNegative (x : Float) : Bool :=
  match x.toModel.unpack with
  | .finite .negative .. => true
  | .infinity .negative => true
  | .zero .negative => true
  | _ => false

/-- The remainder of `x / y` rounded toward zero. Both are written over the smaller of their exponents, so that the
remainder is one of natural numbers; it keeps the sign of `x`, also when it is zero. -/
def rem (x y : Float) : Float :=
  match x.toModel.unpack, y.toModel.unpack with
  | .finite s m e _, .finite _ n p _ =>
    ofParts s ((m <<< (e - min e p).toNat) % (n <<< (p - min e p).toNat)) (min e p)
  | .finite .., .infinity _ => x
  | .zero _, .finite .. => x
  | .zero _, .infinity _ => x
  | _, _ => nan

/-- The square root of `m * 2 ^ e`, rounded to the nearest double. -/
def rootOfParts (m : Nat) (e : Int) : Float :=
  let (root, exponent, accuracy) := UnpackedFloat.sqrtCore .binary64 m e
  .ofModel (.pack (.roundWithAccuracy .binary64 .positive root exponent accuracy))

/-- The length of the hypotenuse, infinite as soon as one side is. -/
def hypot (x y : Float) : Float :=
  match x.toModel.unpack, y.toModel.unpack with
  | .infinity _, _ => infinity
  | _, .infinity _ => infinity
  | .notANumber, _ => nan
  | _, .notANumber => nan
  | .zero _, _ => y.abs
  | _, .zero _ => x.abs
  | .finite _ m e _, .finite _ n p _ =>
    let m' := m <<< (e - min e p).toNat
    let n' := n <<< (p - min e p).toNat
    rootOfParts (m' * m' + n' * n') (2 * min e p)

instance : Scalar Float where
  decidableLT := Float.decLt
  abs := Float.abs
  sqrt := Float.sqrt
  sin := Float.sin
  cos := Float.cos
  atan2 := Float.atan2
  hypot := hypot
  rem := rem
  pi := 3.141592653589793
  isFinite := Float.isFinite
  isNaN := Float.isNaN

end RotationCircuits.Binary64
