import Mathlib.Algebra.BigOperators.Group.List.Basic
import RotationCircuits.Proofs.Native
import RotationCircuits.Text.Notation

/-!
# The circuit invariant

A circuit that was built by checked operations has one or two qubits, holds valid gates on its own qubits only, and never
changes its width (`wellFormed_of_actions`). The computed angles of a pass may overflow, and an edit may fail half way;
all that matters is that every edit is put together from steps that keep the invariant, so `Edit.Keeps` is closed under
the combinators of edits.
-/

namespace RotationCircuits

open Hardware (Profile)

variable {α : Type} [Scalar α]

/-- Whether it succeeds or fails, the edit leaves a well-formed circuit well-formed and of the same width. -/
def Edit.Keeps {β : Type} (e : Edit α β) : Prop :=
  ∀ c : Circuit α, c.WellFormed → (e.apply c).2.WellFormed ∧ (e.apply c).2.width = c.width

namespace Edit.Keeps

theorem pure {β : Type} (b : β) : (Pure.pure b : Edit α β).Keeps := fun _ hc => ⟨hc, rfl⟩

theorem ofExcept {β : Type} (r : Except (Error α) β) : (Edit.ofExcept r).Keeps := by
  intro c hc
  rw [apply_ofExcept]
  exact ⟨hc, rfl⟩

theorem bind {β γ : Type} {e : Edit α β} {f : β → Edit α γ} (he : e.Keeps) (hf : ∀ b, (f b).Keeps) :
    (e >>= f).Keeps := by
  intro c hc
  have h := he c hc
  rw [apply_bind]
  generalize e.apply c = r at h ⊢
  obtain ⟨r, d⟩ := r
  cases r with
  | error x => exact h
  | ok b =>
    obtain ⟨hd, hw⟩ := hf b d h.1
    exact ⟨hd, hw.trans h.2⟩

theorem update {f : Circuit α → Except (CircuitError α) (Circuit α)}
    (hf : ∀ c d, c.WellFormed → f c = .ok d → d.WellFormed ∧ d.width = c.width) : (Edit.update f).Keeps := by
  intro c hc
  rw [apply_update]
  cases h : f c with
  | error e => exact ⟨hc, rfl⟩
  | ok d => exact hf c d hc h

theorem push (g : Gate α) : (Edit.update (·.push g)).Keeps := by
  refine update fun c d hc h => ⟨hc.push h, ?_⟩
  obtain ⟨-, -, rfl⟩ := Circuit.push_eq_ok_iff.1 h
  rfl

theorem pushCx (control target : Qubit) : (Edit.update (·.pushCx control target) : Edit α Unit).Keeps := by
  refine update fun c d hc h => ?_
  obtain ⟨g, -, h⟩ := bind_eq_ok.1 h
  refine ⟨hc.push h, ?_⟩
  obtain ⟨-, -, rfl⟩ := Circuit.push_eq_ok_iff.1 h
  rfl

theorem setGates (gs : List (Gate α)) : (Edit.update (·.setGates gs)).Keeps := by
  exact update fun c d _ h => ⟨Circuit.wellFormed_of_ofGates h, Circuit.width_of_ofGates h⟩

theorem checkWidth (p : Profile) : (Edit.checkWidth p : Edit α Unit).Keeps := by
  intro c hc
  rw [Edit.checkWidth, apply_bind, apply_get]
  dsimp only
  rw [apply_ofExcept]
  exact ⟨hc, rfl⟩

theorem pushEach (gs : List (Gate α)) : (Edit.pushEach gs).Keeps := by
  induction gs with
  | nil => exact pure ()
  | cons g gs ih => exact bind (push g) fun _ => ih

theorem pushNative (p : Profile) (g : Gate α) : (Edit.pushNative p g).Keeps :=
  bind (checkWidth p) fun _ => bind (ofExcept _) fun gs => pushEach gs

/-- A pass rebuilds the circuit through the checks of `Circuit.ofGates`, or does not touch it. -/
theorem pass (step : Pass) (p : Profile) : (step.run p : Edit α Unit).Keeps := by
  intro c hc
  rw [Pass.apply_run]
  cases h : step.output p c with
  | error e => exact ⟨hc, rfl⟩
  | ok d =>
    rcases Pass.output_cases h with rfl | ⟨gs, hd⟩
    · exact ⟨hc, rfl⟩
    · exact ⟨Circuit.wellFormed_of_ofGates hd, Circuit.width_of_ofGates hd⟩

theorem pipeline (p : Profile) (passes : Pipeline) : (passes.run p : Edit α Unit).Keeps := by
  induction passes with
  | nil => exact pure ()
  | cons first passes ih =>
    intro c hc
    have hpass := pass first p c hc
    rw [Pass.apply_run] at hpass
    rw [Pipeline.apply_run_cons]
    cases h : first.outcome p c with
    | error e => exact ⟨hc, rfl⟩
    | ok d =>
      rcases Pass.outcome_eq_ok h with h | ⟨-, rfl⟩
      · rw [h] at hpass
        obtain ⟨hd, hw⟩ := ih d hpass.1
        exact ⟨hd, hw.trans hpass.2⟩
      · exact ih _ hc

end Edit.Keeps

/-! ## Sequences of actions -/

/-- What a user can do to a circuit. Every action has its own target. -/
inductive Action (α : Type) where
  | push (g : Gate α)
  | rotate (axis : Axis) (angle : α) (q : Qubit)
  | cx (control target : Qubit)
  | setGates (gs : List (Gate α))
  | pushNative (p : Profile) (g : Gate α)
  | pass (p : Profile) (step : Pass)
  | pipeline (p : Profile) (passes : Pipeline)
  | optimize (p : Profile)

namespace Action

/-- The edit that an action makes. -/
def edit : Action α → Edit α Unit
  | push g => .update (·.push g)
  | rotate axis angle q => .update (·.push (.rotation axis q angle))
  | cx control target => .update (·.pushCx control target)
  | setGates gs => .update (·.setGates gs)
  | pushNative p g => .pushNative p g
  | .pass p step => step.run p
  | pipeline p passes => passes.run p
  | optimize p => do set (← Edit.ofExcept (Run.optimizeCircuit p (← get)))

/-- The circuit after an action, done or failed. -/
def after (c : Circuit α) (a : Action α) : Circuit α := (a.edit.apply c).2

/-- The circuit after a sequence of actions. -/
def run (actions : List (Action α)) (c : Circuit α) : Circuit α := actions.foldl after c

theorem keeps_optimize (p : Profile) : (optimize p : Action α).edit.Keeps := by
  -- Replacing the circuit by its optimized form is what the pass does.
  have h : ∀ c : Circuit α, (optimize p).edit.apply c = (Pass.runOptimization.run p).apply c := by
    intro c
    rw [edit, Edit.apply_bind, Edit.apply_get]
    dsimp only
    rw [Edit.apply_bind, Edit.apply_ofExcept, Pass.apply_run, Run.optimizeCircuit_eq_output]
    cases Pass.runOptimization.output p c <;> rfl
  intro c hc
  rw [h]
  exact Edit.Keeps.pass .runOptimization p c hc

theorem keeps_edit (a : Action α) : a.edit.Keeps := by
  cases a with
  | push g => exact .push g
  | rotate axis angle q => exact .push _
  | cx control target => exact .pushCx control target
  | setGates gs => exact .setGates gs
  | pushNative p g => exact .pushNative p g
  | pass p step => exact .pass step p
  | pipeline p passes => exact .pipeline p passes
  | optimize p => exact keeps_optimize p

theorem wellFormed_run {c : Circuit α} (hc : c.WellFormed) (actions : List (Action α)) :
    (run actions c).WellFormed ∧ (run actions c).width = c.width := by
  induction actions generalizing c with
  | nil => exact ⟨hc, rfl⟩
  | cons a actions ih =>
    obtain ⟨hd, hw⟩ := keeps_edit a c hc
    obtain ⟨he, hw'⟩ := ih hd
    exact ⟨he, hw'.trans hw⟩

end Action

/-- How a circuit of a given width comes into being. -/
inductive Origin (width : Nat) (c : Circuit Float) : Prop where
  | empty (h : Circuit.empty width = .ok c)
  | ofGates (gs : List (Gate Float)) (h : Circuit.ofGates width gs = .ok c)
  | parsed (source : String) (h : Text.parseCircuit source width = .ok c)

theorem Origin.wellFormed {width : Nat} {c : Circuit Float} (h : Origin width c) : c.WellFormed ∧ c.width = width := by
  have hbuilt : ∀ gs, Circuit.ofGates width gs = .ok c → c.WellFormed ∧ c.width = width := by
    intro gs h
    exact ⟨Circuit.wellFormed_of_ofGates h, Circuit.width_of_ofGates h⟩
  cases h with
  | empty h =>
    obtain ⟨hw, rfl⟩ := Circuit.empty_eq_ok_iff.1 h
    exact ⟨⟨hw, by simp⟩, rfl⟩
  | ofGates gs h => exact hbuilt gs h
  | parsed source h =>
    obtain ⟨gs, -, h⟩ := bind_eq_ok.1 h
    split at h
    · rename_i d hd
      cases h
      exact hbuilt gs hd
    · cases h

/-- All angles of a valid gate are finite. -/
theorem Gate.isFinite_of_validate {g : Gate α} (h : g.validate = .ok ()) : ∀ a ∈ g.angles, Scalar.isFinite a = true := by
  cases g with
  | cx control target => simp [angles]
  | rotation axis q θ => exact (validate_eq_ok_iff (by simp)).1 h
  | general q e => exact (validate_eq_ok_iff (by simp)).1 h

/-- **The circuit invariant.** Whatever is done to a circuit, and whichever of the steps fail, it keeps its one or two
qubits, and all its gates are valid and on these qubits; so only a circuit of two qubits has a CX. -/
theorem wellFormed_of_actions (width : Nat) (start : Circuit Float) (h : Origin width start)
    (actions : List (Action Float)) :
    let c := Action.run actions start
    (c.width = 1 ∨ c.width = 2) ∧ c.width = width ∧
      (∀ g ∈ c.gates, g.validate = .ok () ∧ (∀ a ∈ g.angles, Scalar.isFinite a = true) ∧
        ∀ q ∈ g.qubits, q.index.toNat < c.width) ∧
      ∀ control target, .cx control target ∈ c.gates → Gate.IsPair control target ∧ c.width = 2 := by
  intro c
  obtain ⟨hstart, hwidth⟩ := h.wellFormed
  obtain ⟨⟨hw, hgates⟩, hkeep⟩ := Action.wellFormed_run hstart actions
  refine ⟨hw, hkeep.trans hwidth, fun g hg => ?_, fun control target hcx => ?_⟩
  · obtain ⟨hv, hq⟩ := hgates g hg
    exact ⟨hv, Gate.isFinite_of_validate hv, hq⟩
  · have hfit : (Gate.cx control target : Gate Float).Fits c.width := hgates _ hcx
    have h2 : 2 ≤ c.width := hfit.two_le
    refine ⟨Gate.validate_cx_iff.1 hfit.1, ?_⟩
    change c.width = 1 ∨ c.width = 2 at hw
    omega

/-- A circuit that is read, edited and compiled, with two edits that fail. -/
def editedProgram : List (Action Float) :=
  [.push (.rotation .x ⟨5⟩ 10.0), .rotate .x 90.0 ⟨0⟩, .cx ⟨1⟩ ⟨1⟩, .rotate .x 90.0 ⟨0⟩,
    .pipeline (.pair .xyz) (Pipeline.ofLevel 1)]

theorem wellFormed_of_editedProgram :
    Origin 2 ⟨2, [.cx ⟨0⟩ ⟨1⟩]⟩ ∧
      Action.run editedProgram ⟨2, [.cx ⟨0⟩ ⟨1⟩]⟩ = ⟨2, [.cx ⟨0⟩ ⟨1⟩, .rotation .x ⟨0⟩ 180.0]⟩ ∧
      ∀ g ∈ (Action.run editedProgram ⟨2, [.cx ⟨0⟩ ⟨1⟩]⟩).gates, g.validate = .ok () := by
  have hstart : Origin 2 ⟨2, [.cx ⟨0⟩ ⟨1⟩]⟩ := .parsed "CX(0, 1)" (by decide +kernel)
  refine ⟨hstart, by decide +kernel, fun g hg => ?_⟩
  exact ((wellFormed_of_actions 2 _ hstart editedProgram).2.2.1 g hg).1

end RotationCircuits
