import RotationCircuits.Operator

/-!
# Operators on two qubits

Four by four matrices, used for the CX gate. Basis states are numbered with qubit 0 as the lowest bit.
-/

namespace RotationCircuits

/-- A four by four matrix, row by row. -/
structure PairOperator (α : Type) where
  entries : Vector (Amplitude α) 16
deriving BEq, DecidableEq, Repr

namespace PairOperator

variable {α : Type} [Scalar α]

def entry (u : PairOperator α) (row col : Fin 4) : Amplitude α := u.entries[row.val * 4 + col.val]

/-- The matrix with given entries. -/
def ofFn (f : Fin 4 → Fin 4 → Amplitude α) : PairOperator α :=
  ⟨.ofFn fun i => f ⟨i.val / 4, by omega⟩ ⟨i.val % 4, by omega⟩⟩

/-- The matrix that sends basis state `i` to `image i`. -/
def permutation (image : Fin 4 → Fin 4) : PairOperator α :=
  ofFn fun row col => if image col = row then .one else .zero

def identity : PairOperator α := permutation id

/-- CX with control 0 and target 1: exchanges the states 1 and 3. -/
def cx01 : PairOperator α := permutation fun i => if i = 1 then 3 else if i = 3 then 1 else i

/-- CX with control 1 and target 0: exchanges the states 2 and 3. -/
def cx10 : PairOperator α := permutation fun i => if i = 2 then 3 else if i = 3 then 2 else i

/-- Matrix product; each sum starts at zero and runs from left to right. -/
def mul (u v : PairOperator α) : PairOperator α :=
  ofFn fun row col =>
    .zero + u.entry row 0 * v.entry 0 col + u.entry row 1 * v.entry 1 col +
      u.entry row 2 * v.entry 2 col + u.entry row 3 * v.entry 3 col

instance : Mul (PairOperator α) := ⟨mul⟩

/-- Is every entry close to that of the identity? -/
def isIdentity (u : PairOperator α) : Bool :=
  (u.entries.zip identity.entries).all fun (z, w) => decide ((z - w).norm < Operator.tolerance)

end PairOperator

end RotationCircuits
