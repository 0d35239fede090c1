import RotationCircuits.Sequence.Optimize

/-!
# Native gates

Every valid gate on the qubits of a target has an equivalent in gates that the target runs:

    X(t) on a Y, Z basis     Z(90), Y(t), Z(-90)
    Y(t) on an X, Z basis    Z(-90), X(t), Z(90)
    the general gate         its rendering for the target

A gate that the target runs is its own equivalent.
-/

namespace RotationCircuits.Gate

open Hardware (Profile)

variable {α : Type} [Scalar α]

/-- The equivalent of a gate that the target does not run. -/
def substitute (p : Profile) (g : Gate α) : Except (Error α) (List (Gate α)) :=
  match g with
  | rotation .x q θ => .ok [rotation .z q 90.0, rotation .y q θ, rotation .z q (-90.0)]
  | rotation .y q θ => .ok [rotation .z q (-90.0), rotation .x q θ, rotation .z q 90.0]
  | general q e => Sequence.decompose p q e
  | rotation .z .. => .error (.notNative g)
  | cx .. => .error (.notNative g)

/-- Native gates equivalent to a gate. -/
def toNative (p : Profile) (g : Gate α) : Except (Error α) (List (Gate α)) := do
  Sequence.validateAll [g]
  p.checkQubits g.qubits
  if p.supports g then return [g] else g.substitute p

/-- Native gates equivalent to gates, one gate after the other. -/
def allToNative (p : Profile) : List (Gate α) → Except (Error α) (List (Gate α))
  | [] => .ok []
  | g :: gs => do return (← g.toNative p) ++ (← allToNative p gs)

end RotationCircuits.Gate
