import RotationCircuits.Circuit
import RotationCircuits.Native

/-!
# Editing a circuit

An edit changes a circuit step by step and may fail; the changes made before a failure stay.
-/

namespace RotationCircuits

/-- A computation on a current circuit that may fail. -/
abbrev Edit (α : Type) := ExceptT (Error α) (StateM (Circuit α))

namespace Edit

open Hardware (Profile)

variable {α : Type}

/-- Runs an edit: how it ended, and the circuit it left. -/
def apply {β : Type} (e : Edit α β) (c : Circuit α) : Except (Error α) β × Circuit α :=
  StateT.run (ExceptT.run e) c

/-- Goes on with a result, or fails with its error. -/
def ofExcept {β : Type} : Except (Error α) β → Edit α β
  | .ok b => pure b
  | .error e => throw e

/-- Replaces the circuit by what a checked operation makes of it. -/
def update (f : Circuit α → Except (CircuitError α) (Circuit α)) : Edit α Unit := do
  match f (← get) with
  | .ok c => set c
  | .error e => throw (.circuit e)

@[simp] theorem apply_pure {β : Type} (b : β) (c : Circuit α) : (pure b : Edit α β).apply c = (.ok b, c) := rfl

@[simp] theorem apply_throw {β : Type} (e : Error α) (c : Circuit α) :
    (throw e : Edit α β).apply c = (.error e, c) := rfl

@[simp] theorem apply_get (c : Circuit α) : (get : Edit α (Circuit α)).apply c = (.ok c, c) := rfl

@[simp] theorem apply_set (c d : Circuit α) : (set d : Edit α PUnit).apply c = (.ok ⟨⟩, d) := rfl

theorem apply_bind {β γ : Type} (e : Edit α β) (f : β → Edit α γ) (c : Circuit α) :
    (e >>= f).apply c =
      match e.apply c with
      | (.ok b, d) => (f b).apply d
      | (.error x, d) => (.error x, d) := by
  show StateT.run (ExceptT.run (e >>= f)) c = _
  simp only [ExceptT.run_bind, StateT.run_bind, apply]
  cases StateT.run (ExceptT.run e) c with
  | mk r d => cases r <;> rfl

@[simp] theorem apply_ofExcept {β : Type} (r : Except (Error α) β) (c : Circuit α) :
    (ofExcept r).apply c = (r, c) := by
  cases r <;> rfl

theorem apply_update (f : Circuit α → Except (CircuitError α) (Circuit α)) (c : Circuit α) :
    (update f).apply c =
      match f c with
      | .ok d => (.ok (), d)
      | .error e => (.error (.circuit e), c) := by
  simp only [update, apply_bind, apply_get]
  cases f c <;> rfl

/-- Fails if the circuit is wider than the target. -/
def checkWidth (p : Profile) : Edit α Unit := do
  ofExcept (p.checkWidth (← get).width)

variable [Scalar α]

/-- Appends gates one by one. -/
def pushEach : List (Gate α) → Edit α Unit
  | [] => pure ()
  | g :: gs => do
    update (·.push g)
    pushEach gs

/-- Appends the native equivalent of a gate. -/
def pushNative (p : Profile) (g : Gate α) : Edit α Unit := do
  checkWidth p
  pushEach (← ofExcept (g.toNative p))

end Edit

end RotationCircuits
