import RotationCircuits.Edit
import RotationCircuits.Run

/-!
# Passes and pipelines

A pass edits a circuit for a target, or only looks at it. A pipeline runs passes in order, leaves out those that have
nothing to do, and stops at the first failure.
-/

namespace RotationCircuits

open Hardware (Profile)

/-! ## Passes -/

/-- The steps of compilation. -/
inductive Pass where
  /-- Replaces gates that the target does not run. -/
  | nativeSubstitution
  /-- Optimizes the runs between CX gates. -/
  | runOptimization
  /-- Fails on the first gate that the target does not run. -/
  | nativeVerification
deriving DecidableEq, Repr

/-- Whether a pass changes the circuit or only looks at it. -/
inductive PassKind where
  | analysis
  | transformation
deriving DecidableEq, Repr

namespace Pass

def name : Pass → String
  | nativeSubstitution => "BasisTranslation"
  | runOptimization => "Optimize1qRuns"
  | nativeVerification => "native_verification"

def kind : Pass → PassKind
  | nativeVerification => .analysis
  | _ => .transformation

variable {α : Type} [Scalar α]

/-- Has the pass something to do? -/
def shouldRun (pass : Pass) (p : Profile) (c : Circuit α) : Bool :=
  match pass with
  | nativeSubstitution => !p.supportsAll c.gates
  | runOptimization => !c.gates.isEmpty
  | nativeVerification => true

/-- Runs a pass on the current circuit. -/
def run (pass : Pass) (p : Profile) : Edit α Unit := do
  Edit.checkWidth p
  match pass with
  | nativeSubstitution =>
    let gates ← Edit.ofExcept (Gate.allToNative p (← get).gates)
    Edit.update (·.setGates gates)
  | runOptimization =>
    let gates ← Edit.ofExcept (Run.optimizeGates p (← get).gates)
    Edit.update (·.setGates gates)
  | nativeVerification =>
    match (← get).gates.find? fun g => !p.supports g with
    | some g => throw (.notNative g)
    | none => return

end Pass

/-! ## Pipelines -/

/-- Passes in the order in which they run. -/
abbrev Pipeline := List Pass

namespace Pipeline

/-- The pipeline of an optimization level: at level 0 gates are only made native. -/
def ofLevel (level : Nat) : Pipeline :=
  if level = 0 then [.nativeSubstitution]
  else [.nativeSubstitution, .runOptimization, .nativeVerification]

/-- The optimization level that is used unless another is asked for. -/
def defaultLevel : Nat := 1

variable {α : Type} [Scalar α]

/-- Runs the passes that have something to do, up to the first failure. -/
def run (p : Profile) : Pipeline → Edit α Unit
  | [] => pure ()
  | pass :: passes => do
    if pass.shouldRun p (← get) then pass.run p
    run p passes

end Pipeline

end RotationCircuits
