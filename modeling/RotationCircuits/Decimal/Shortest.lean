import RotationCircuits.Decimal

/-!
# Shortest decimals

`shortest` is the decimal with the fewest digits that reads back as a given double, and of several the one nearest to
it. Whatever the search finds has been read back, and its last resort is the exact value of the double.
-/

namespace RotationCircuits.Decimal

/-- Which neighbour is nearer when a value lies half-way between two decimals. -/
inductive Tie where
  | up
  | even
deriving DecidableEq, Repr

/-- The decimal exponent of `num / den`: `10 ^ k ≤ num / den < 10 ^ (k + 1)`. -/
def magnitude (num den : Nat) : Int :=
  if den ≤ num then (digits (num / den)).length - 1
  else
    let u := (den - 1) / num
    if u = 0 then 0 else -(digits u).length

/-- Is `num / den` nearer to the whole number above it than to the one below? -/
def roundsUp (tie : Tie) (num den : Nat) : Bool :=
  match compare (2 * (num % den)) den with
  | .lt => false
  | .gt => true
  | .eq => tie == .up || num / den % 2 == 1

/-- The neighbours of `num / den` on the grid of multiples of `10 ^ exponent`, the nearer one first. -/
def neighbours (tie : Tie) (num den : Nat) (exponent : Int) : List Decimal :=
  let num := num * Nat.pow 10 (-exponent).toNat
  let den := den * Nat.pow 10 exponent.toNat
  let low : Decimal := ⟨num / den, exponent⟩
  let high : Decimal := ⟨num / den + 1, exponent⟩
  if roundsUp tie num den then [high, low] else [low, high]

/-- The first decimal of up to 17 digits next to `num / den` that reads back as `x`. -/
def search (tie : Tie) (x : Float) (num den : Nat) : Option Decimal :=
  (List.range 17).findSome? fun n : Nat =>
    (neighbours tie num den (magnitude num den - n)).find? fun d => d.toFloat = x

/-- The exact value of `mantissa * 2 ^ exponent`. -/
def exact (mantissa : Nat) (exponent : Int) : Decimal :=
  ⟨mantissa * Nat.pow 2 exponent.toNat * Nat.pow 5 (-exponent).toNat, min exponent 0⟩

/-- The shortest decimal that reads back as the magnitude of a finite double, in normal form. -/
def shortest (tie : Tie) (x : Float) : Decimal :=
  match x.toModel.unpack with
  | .finite _ m e _ =>
    let num := m * Nat.pow 2 e.toNat
    let den := Nat.pow 2 (-e).toNat
    ((search tie x.abs num den).getD (exact m e)).normalize
  | _ => ⟨0, 0⟩

end RotationCircuits.Decimal
