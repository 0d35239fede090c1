import RotationCircuits.Decimal

/-!
# Qubits and rotation axes
-/

namespace RotationCircuits

/-- A qubit, known by its 32-bit index. -/
structure Qubit where
  index : UInt32
deriving DecidableEq, Repr

namespace Qubit

/-- The index in decimal digits. -/
def digits (q : Qubit) : List Char := Decimal.digits q.index.toNat

/-- The name of a qubit in messages: `q0`. -/
def text (q : Qubit) : String := .ofList ('q' :: q.digits)

end Qubit

inductive Axis where
  | x
  | y
  | z
deriving DecidableEq, Repr

namespace Axis

def letter : Axis → Char
  | x => 'X'
  | y => 'Y'
  | z => 'Z'

/-- The name of an axis, also the name of the rotations around it. -/
def name (a : Axis) : String := a.letter.toString

def all : List Axis := [x, y, z]

end Axis

end RotationCircuits
