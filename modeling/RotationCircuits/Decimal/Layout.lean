import RotationCircuits.Binary64
import RotationCircuits.Decimal.Shortest

/-!
# Layouts of decimals

A decimal is laid out in positional or in scientific notation. `plain` is the text of a double in circuit notation and in
messages: positional whatever its size, and without a point when the number is whole.
-/

namespace RotationCircuits.Decimal

/-- Positional notation: no exponent, and no point unless there is a fraction. -/
def positional (d : Decimal) : List Char :=
  let ds := digits d.significand
  let places := (-d.exponent).toNat
  if places = 0 then
    if d.significand = 0 then ds else ds ++ List.replicate d.exponent.toNat '0'
  else
    let ds := List.replicate (places + 1 - ds.length) '0' ++ ds
    ds.take (ds.length - places) ++ '.' :: ds.drop (ds.length - places)

/-- Scientific notation: one digit before the point, no point after a lone digit, and `e` before the power of ten. A
power that is not negative gets the sign given. -/
def scientific (plus : List Char) (d : Decimal) : List Char :=
  let ds := digits d.significand
  let power := d.exponent + (ds.length - 1)
  let fraction := if ds.length = 1 then [] else '.' :: ds.drop 1
  let sign := if power < 0 then ['-'] else plus
  ds.take 1 ++ fraction ++ 'e' :: (sign ++ digits power.natAbs)

/-- A minus for doubles with the sign bit, then the magnitude. -/
def signed (x : Float) (magnitude : List Char) : List Char :=
  if Binary64.isNegative x then '-' :: magnitude else magnitude

/-- The characters of a double, laid out by `layout` when it is finite. -/
def charsWith (layout : Float → List Char) (x : Float) : List Char :=
  if x.isNaN then "NaN".toList
  else if x.isInf then signed x "inf".toList
  else signed x (layout x)

/-- The characters of a double in positional notation. -/
def plainChars : Float → List Char := charsWith fun x => (shortest .up x).positional

/-- The text of a double in positional notation: `90`, `-0`, `0.1`. -/
def plain (x : Float) : String := .ofList (plainChars x)

/-- The text of a double in scientific notation: `9e1`, `1.5e-7`. -/
def exponential (x : Float) : String := .ofList (charsWith (fun x => (shortest .up x).scientific []) x)

end RotationCircuits.Decimal
