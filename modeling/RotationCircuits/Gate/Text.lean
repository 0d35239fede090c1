import RotationCircuits.Decimal.Layout
import RotationCircuits.Gate

/-!
# The text of gates

A gate is written as its name and its parameters: `X(0, 90)`, `CX(0, 1)`. How an angle is written is a parameter, so
that one layout serves exact and rounded listings.
-/

namespace RotationCircuits

namespace Gate

/-- The characters of a gate, its angles written by `number`. -/
def charsWith {α : Type} (number : α → List Char) : Gate α → List Char
  | rotation a q θ => a.letter :: '(' :: (q.digits ++ ',' :: ' ' :: (number θ ++ [')']))
  | cx c t => 'C' :: 'X' :: '(' :: (c.digits ++ ',' :: ' ' :: (t.digits ++ [')']))
  | general q e =>
    'U' :: 'O' :: 'n' :: 'e' :: '(' :: (q.digits ++ ',' :: ' ' :: (number e.theta ++ ',' :: ' ' ::
      (number e.phi ++ ',' :: ' ' :: (number e.lambda ++ [')']))))

def chars (g : Gate Float) : List Char := g.charsWith Decimal.plainChars

def text (g : Gate Float) : String := .ofList g.chars

end Gate

def CircuitError.message : CircuitError Float → String
  | unsupportedPair c t => s!"CX gate requires qubit pair (q0, q1) or (q1, q0), got ({c.text}, {t.text})"
  | qubitOutOfRange q width gate =>
    let base := s!"Qubit {q.text} out of range for a {width}-qubit circuit"
    match gate with
    | some name => s!"{base} (gate: {name})"
    | none => base
  | unsupportedWidth width => s!"Circuits support 1 or 2 qubits, got {width}"
  | nonFiniteAngle gate angle => s!"Gate '{gate}' has non-finite angle {Decimal.plain angle}"

end RotationCircuits
