import RotationCircuits.Error
import RotationCircuits.Hardware.Basis

/-!
# Hardware profiles

A profile describes a target: the width of its register, its native basis and how many nanoseconds its gates take. What a
profile must satisfy is part of its type. A description is a profile before it is checked: gate names instead of a basis,
and durations that may be left out.
-/

namespace RotationCircuits.Hardware

/-! ## Durations -/

/-- The duration of each kind of gate, in nanoseconds. -/
structure Durations where
  x : UInt64
  y : UInt64
  z : UInt64
  cx : UInt64
deriving DecidableEq, Repr

namespace Durations

/-- The durations assumed where none are given. -/
def standard : Durations := ⟨10, 10, 10, 100⟩

/-- Every gate takes time. -/
def Positive (d : Durations) : Prop := d.x ≠ 0 ∧ d.y ≠ 0 ∧ d.z ≠ 0 ∧ d.cx ≠ 0

instance (d : Durations) : Decidable d.Positive := inferInstanceAs (Decidable (_ ∧ _))

/-- The first gate that takes no time, in the order `x`, `y`, `z`, `cx`. -/
def zeroGate (d : Durations) : String :=
  if d.x = 0 then "x" else if d.y = 0 then "y" else if d.z = 0 then "z" else "cx"

def ofAxis (d : Durations) : Axis → UInt64
  | .x => d.x
  | .y => d.y
  | .z => d.z

end Durations

/-! ## Profiles -/

/-- A target device. -/
structure Profile where
  width : Nat
  basis : Basis
  durations : Durations
  width_eq : width = 1 ∨ width = 2
  positive : durations.Positive
deriving DecidableEq, Repr

namespace Profile

/-- One qubit, all rotations native, standard durations. -/
def standard : Profile := ⟨1, .xyz, .standard, by decide, by decide⟩

/-- The profile with standard durations. -/
def ofBasis (width : Nat) (basis : Basis) : Except ProfileError Profile :=
  if h : width = 1 ∨ width = 2 then .ok ⟨width, basis, .standard, h, by decide⟩
  else .error (.unsupportedWidth width)

def withDurations (p : Profile) (d : Durations) : Except ProfileError Profile :=
  if h : d.Positive then .ok { p with durations := d, positive := h }
  else .error (.zeroDuration d.zeroGate)

variable {α : Type} [Scalar α]

/-- Can the target run this gate as it is? Qubit range and finiteness of angles are not looked at. -/
def supports (p : Profile) : Gate α → Bool
  | .rotation a _ _ => p.basis.contains a
  | .cx c t => p.width = 2 && (Gate.cx c t : Gate α).isValid
  | .general .. => false

/-- Can the target run all these gates as they are? -/
def supportsAll (p : Profile) (gates : List (Gate α)) : Bool := gates.all p.supports

/-- The duration of a gate. The general gate has none. -/
def duration (p : Profile) : Gate α → Except (Error α) UInt64
  | .rotation a _ _ => .ok (p.durations.ofAxis a)
  | .cx .. => .ok p.durations.cx
  | g@(.general ..) => .error (.untimed g.name)

/-- The total duration of gates. Durations are added up as 64-bit words, so a sum that is too large wraps around. -/
def totalDuration (p : Profile) : List (Gate α) → Except (Error α) UInt64
  | [] => .ok 0
  | g :: gs => do return (← p.duration g) + (← p.totalDuration gs)

/-- Checks that a register fits on the target. -/
def checkWidth (p : Profile) (width : Nat) : Except (Error α) Unit :=
  if width ≤ p.width then .ok () else .error (.tooWide width p.width)

/-- Checks that a qubit exists on the target. -/
def checkQubit (p : Profile) (q : Qubit) : Except (Error α) Unit :=
  if q.index.toNat < p.width then .ok () else .error (.circuit (.qubitOutOfRange q p.width none))

def checkQubits (p : Profile) : List Qubit → Except (Error α) Unit
  | [] => .ok ()
  | q :: qs => do
    p.checkQubit q
    p.checkQubits qs

end Profile

/-! ## Descriptions -/

/-- Durations of which any may be left out. -/
structure PartialDurations where
  x : Option UInt64 := none
  y : Option UInt64 := none
  z : Option UInt64 := none
  cx : Option UInt64 := none
deriving DecidableEq, Repr

/-- Fills in the standard durations. -/
def PartialDurations.resolve (d : PartialDurations) : Durations where
  x := d.x.getD Durations.standard.x
  y := d.y.getD Durations.standard.y
  z := d.z.getD Durations.standard.z
  cx := d.cx.getD Durations.standard.cx

/-- An unchecked description of a target. -/
structure Config where
  width : Nat
  gateNames : List String := Basis.xyz.gateNames
  durations : PartialDurations := {}
deriving DecidableEq, Repr

/-- The profile that a description stands for. Gate names are checked first, then the width, then durations. -/
def Config.toProfile (c : Config) : Except ProfileError Profile := do
  let basis ← Basis.ofGateNames c.gateNames
  (← Profile.ofBasis c.width basis).withDurations c.durations.resolve

def Profile.toConfig (p : Profile) : Config where
  width := p.width
  gateNames := p.basis.gateNames
  durations := ⟨some p.durations.x, some p.durations.y, some p.durations.z, some p.durations.cx⟩

end RotationCircuits.Hardware
