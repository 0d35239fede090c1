import RotationCircuits.Euler
import RotationCircuits.Sequence.Peephole

/-!
# Optimizing one-qubit sequences

A sequence of at most three gates goes through the peephole simplifier; any sequence can be synthesized anew from its net
operator, with at most three gates. The shorter native candidate is taken.
-/

namespace RotationCircuits.Sequence

open Hardware (Profile)

variable {α : Type} [Scalar α]

/-- The longest sequence that the peephole simplifier sees. -/
def window : Nat := 3

/-- Native gates on a qubit with the net operator of a sequence. -/
def synthesize (p : Profile) (q : Qubit) (gates : List (Gate α)) : Except (Error α) (List (Gate α)) := do
  let angles ← Euler.ofOperator (← operator gates)
  return (← Rendering.select p angles q).2

/-- Checks every gate. -/
def validateAll : List (Gate α) → Except (Error α) Unit
  | [] => .ok ()
  | g :: gs =>
    match g.validate with
    | .ok _ => validateAll gs
    | .error e => .error (.circuit e)

/-- The candidate of the peephole simplifier if it is native and shorter than the sequence, else the shorter of the native
candidates, the simplified one if they are as long. -/
def choose (p : Profile) (q : Qubit) (gates : List (Gate α)) : Except (Error α) (List (Gate α)) := do
  let simplified := peephole gates
  let native := p.supportsAll simplified
  if simplified.length < gates.length && native then
    return simplified
  else
    let synthesized ← synthesize p q gates
    if native && simplified.length ≤ synthesized.length then return simplified else return synthesized

/-- Native gates with the same effect as a sequence, up to a global phase. -/
def optimize (p : Profile) (gates : List (Gate α)) : Except (Error α) (List (Gate α)) := do
  match ← qubit gates with
  | none => return []
  | some q =>
    p.checkQubit q
    validateAll gates
    if window < gates.length then synthesize p q gates else choose p q gates

/-- Native gates for the general gate on a qubit. -/
def decompose (p : Profile) (q : Qubit) (angles : Euler α) : Except (Error α) (List (Gate α)) := do
  validateAll [.general q angles]
  p.checkQubit q
  return (← Rendering.select p angles q).2

end RotationCircuits.Sequence
