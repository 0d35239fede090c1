import RotationCircuits.Angle
import RotationCircuits.Gate

/-!
# Peephole simplification

Closed identities on windows of at most three rotations of one qubit, all up to a global phase:

    P(a)                      nothing, if a is a whole number of turns
    P(a), P(b)                P(a + b), or nothing if a + b is a whole number of turns
    P(180), Q(b), P(180)      Q(-b), for different axes P and Q
    P(90), Q(180), P(90)      Q(180), for different axes P and Q

Every other list of gates is left as it is.
-/

namespace RotationCircuits.Sequence

variable {α : Type} [Scalar α]

/-- A rotation of the qubit at hand. -/
structure Turn (α : Type) where
  axis : Axis
  angle : α
deriving DecidableEq, Repr

namespace Turn

/-- A single rotation, unless it is by zero. -/
def single (t : Turn α) : List (Turn α) := if Angle.isZero t.angle then [] else [t]

/-- Two rotations around one axis as at most one. -/
def merge? (s t : Turn α) : Option (List (Turn α)) :=
  if s.axis = t.axis then some (single ⟨s.axis, s.angle + t.angle⟩) else none

/-- Two rotations, merged if they can be. -/
def pair (s t : Turn α) : List (Turn α) := (merge? s t).getD [s, t]

/-- Three rotations as one, if the outer two are half turns or if they are quarter turns around a half turn. -/
def identity? (s t u : Turn α) : Option (Turn α) :=
  if s.axis = u.axis ∧ t.axis ≠ s.axis then
    if Angle.isNear s.angle 180.0 && Angle.isNear u.angle 180.0 then some ⟨t.axis, -t.angle⟩
    else if Angle.isNear s.angle 90.0 && Angle.isNear t.angle 180.0 && Angle.isNear u.angle 90.0 then some t
    else none
  else none

/-- At most two rotations, simplified. -/
def short : List (Turn α) → List (Turn α)
  | [t] => single t
  | [s, t] => pair s t
  | ts => ts

/-- Three rotations: merges at the front, then at the back, then the identities are tried. -/
def triple (s t u : Turn α) : List (Turn α) :=
  match merge? s t with
  | some merged => short (merged ++ [u])
  | none =>
    match merge? t u with
    | some merged => short (s :: merged)
    | none =>
      match identity? s t u with
      | some v => single v
      | none => [s, t, u]

/-- Any number of rotations; windows of more than three are left as they are. -/
def simplify : List (Turn α) → List (Turn α)
  | [s, t, u] => triple s t u
  | ts => short ts

end Turn

/-- The rotations of gates that are all rotations of one qubit. -/
def turnsOn? (q : Qubit) : List (Gate α) → Option (List (Turn α))
  | [] => some []
  | .rotation a p θ :: gs => if p = q then (turnsOn? q gs).map (⟨a, θ⟩ :: ·) else none
  | _ => none

/-- Simplifies a window of at most three rotations of one qubit. -/
def peephole (gates : List (Gate α)) : List (Gate α) :=
  match gates.head?.bind Gate.qubit? with
  | none => gates
  | some q =>
    match turnsOn? q gates with
    | none => gates
    | some ts => (Turn.simplify ts).map fun t => .rotation t.axis q t.angle

end RotationCircuits.Sequence
