import Mathlib.Data.List.Basic
import RotationCircuits.Binary64
import RotationCircuits.Proofs.Native

/-!
# Failing passes and pipelines

A pass looks at everything before it touches the circuit: it may fail at the width, at any gate or run, or when the new
gates are checked, and in all these cases the circuit is still the old one. So a pipeline that fails leaves what the passes
before the failing one have made (`failed_passes_leave_no_trace`). What they have made is told by `Pipeline.Passed`, pass by
pass and without the pipeline.
-/

namespace RotationCircuits

open Hardware (Profile)

variable {α : Type} [Scalar α] {p : Profile}

/-! ## A single pass -/

namespace Pass

variable {pass : Pass} {c d : Circuit α} {e : Error α}

theorem apply_run_eq_ok_iff : (pass.run p).apply c = (.ok (), d) ↔ pass.output p c = .ok d := by
  rw [apply_run]
  cases pass.output p c <;> simp [settle]

theorem apply_run_eq_error_iff : (pass.run p).apply c = (.error e, d) ↔ pass.output p c = .error e ∧ d = c := by
  rw [apply_run]
  cases pass.output p c <;> simp [settle, eq_comm]

theorem outcome_eq_ok_iff :
    pass.outcome p c = .ok d ↔
      pass.shouldRun p c = false ∧ d = c ∨ pass.shouldRun p c = true ∧ (pass.run p).apply c = (.ok (), d) := by
  rw [outcome, apply_run_eq_ok_iff]
  cases pass.shouldRun p c <;> simp [eq_comm]

theorem outcome_eq_error_iff :
    pass.outcome p c = .error e ↔ pass.shouldRun p c = true ∧ (pass.run p).apply c = (.error e, c) := by
  rw [outcome, apply_run_eq_error_iff]
  cases pass.shouldRun p c <;> simp

/-- Verification only looks at the circuit. -/
theorem circuit_apply_verification (p : Profile) (c : Circuit α) : ((nativeVerification.run p).apply c).2 = c := by
  rw [apply_run]
  cases h : nativeVerification.output p c with
  | error e => rfl
  | ok d => exact (output_eq_ok_iff.1 h).2.2

end Pass

/-! ## Passes in a row -/

namespace Pipeline

/-- The passes have gone over the circuit one after the other, each with success or with nothing to do. -/
inductive Passed (p : Profile) : Pipeline → Circuit α → Circuit α → Prop where
  | done (c : Circuit α) : Passed p [] c c
  | idle {pass : Pass} {passes : Pipeline} {c d : Circuit α} (hidle : pass.shouldRun p c = false)
      (hrest : Passed p passes c d) : Passed p (pass :: passes) c d
  | ran {pass : Pass} {passes : Pipeline} {b c d : Circuit α} (hrun : pass.shouldRun p c = true)
      (hok : (pass.run p).apply c = (.ok (), b)) (hrest : Passed p passes b d) : Passed p (pass :: passes) c d

variable {pass : Pass} {passes : Pipeline} {c d : Circuit α} {e : Error α}

theorem passed_nil_iff : Passed p [] c d ↔ d = c := by
  constructor
  · rintro ⟨⟩
    rfl
  · rintro rfl
    exact .done d

theorem passed_cons_iff :
    Passed p (pass :: passes) c d ↔ ∃ b, pass.outcome p c = .ok b ∧ Passed p passes b d := by
  simp only [Pass.outcome_eq_ok_iff]
  constructor
  · intro h
    cases h with
    | idle hidle hrest => exact ⟨c, .inl ⟨hidle, rfl⟩, hrest⟩
    | ran hrun hok hrest => exact ⟨_, .inr ⟨hrun, hok⟩, hrest⟩
  · rintro ⟨b, ⟨hidle, rfl⟩ | ⟨hrun, hok⟩, hrest⟩
    · exact .idle hidle hrest
    · exact .ran hrun hok hrest

theorem run_eq_ok_iff_passed : (passes.run p).apply c = (.ok (), d) ↔ Passed p passes c d := by
  induction passes generalizing c with
  | nil => simp [run, passed_nil_iff, eq_comm]
  | cons pass passes ih => simp only [run_cons_eq_ok_iff, passed_cons_iff, ih]

/-- A pipeline fails as one of its passes does, on the circuit that the passes before it have made. -/
theorem run_eq_error_iff_stopped :
    (passes.run p).apply c = (.error e, d) ↔
      ∃ k pass, passes[k]? = some pass ∧ Passed p (passes.take k) c d ∧ pass.shouldRun p d = true ∧
        (pass.run p).apply d = (.error e, d) := by
  simp only [← Pass.outcome_eq_error_iff]
  induction passes generalizing c with
  | nil => simp [run]
  | cons first passes ih =>
    rw [run_cons_eq_error_iff]
    simp only [ih]
    constructor
    · rintro (⟨hfail, rfl⟩ | ⟨b, hfirst, k, pass, hk, hbefore, hfail⟩)
      · exact ⟨0, first, rfl, .done _, hfail⟩
      · exact ⟨k + 1, pass, hk, passed_cons_iff.2 ⟨b, hfirst, hbefore⟩, hfail⟩
    · rintro ⟨k, pass, hk, hbefore, hfail⟩
      cases k with
      | zero =>
        cases hk
        obtain rfl := passed_nil_iff.1 hbefore
        exact .inl ⟨hfail, rfl⟩
      | succ k =>
        obtain ⟨b, hfirst, hbefore⟩ := passed_cons_iff.1 hbefore
        exact .inr ⟨b, hfirst, k, pass, hk, hbefore, hfail⟩

end Pipeline

/-- **Failed passes leave no trace.** A pass that fails leaves the circuit as it was, and verification does so in any case. A
pipeline succeeds exactly if all its passes have gone over the circuit. It fails exactly if one of them has something to do
and fails, after those before it have gone over the circuit; what these have made is the circuit that is left. -/
theorem failed_passes_leave_no_trace (p : Profile) :
    (∀ (pass : Pass) (c d : Circuit α) (e : Error α), (pass.run p).apply c = (.error e, d) → d = c) ∧
      (∀ c : Circuit α, ((Pass.nativeVerification.run p).apply c).2 = c) ∧
      ∀ (passes : Pipeline) (c d : Circuit α),
        ((passes.run p).apply c = (.ok (), d) ↔ Pipeline.Passed p passes c d) ∧
        ∀ e : Error α, (passes.run p).apply c = (.error e, d) ↔
          ∃ k pass, passes[k]? = some pass ∧ Pipeline.Passed p (passes.take k) c d ∧ pass.shouldRun p d = true ∧
            (pass.run p).apply d = (.error e, d) := by
  refine ⟨fun pass c d e h => ?_, Pass.circuit_apply_verification p, fun passes c d => ⟨?_, fun e => ?_⟩⟩
  · exact (Pass.apply_run_eq_error_iff.1 h).2
  · exact Pipeline.run_eq_ok_iff_passed
  · exact Pipeline.run_eq_error_iff_stopped

/-- A gate that is not native, and a run of another qubit that is merged to an infinite angle. -/
def overflowing : Circuit Float where
  width := 2
  gates := [.general ⟨0⟩ ⟨0.0, 10.0, 20.0⟩, .rotation .z ⟨0⟩ 5.0, .rotation .z ⟨1⟩ 1e308, .rotation .z ⟨1⟩ 1e308]

/-- `overflowing` with native gates. -/
def overflowingNative : Circuit Float where
  width := 2
  gates := [.rotation .z ⟨0⟩ 30.0, .rotation .z ⟨0⟩ 5.0, .rotation .z ⟨1⟩ 1e308, .rotation .z ⟨1⟩ 1e308]

theorem failed_passes_leave_no_trace_overflowing :
    ((Pipeline.ofLevel 1).run (.pair .xyz)).apply overflowing =
        (.error (.circuit (.nonFiniteAngle "Z" Binary64.infinity)), overflowingNative) ∧
      ∃ k pass, (Pipeline.ofLevel 1)[k]? = some pass ∧
        Pipeline.Passed (.pair .xyz) ((Pipeline.ofLevel 1).take k) overflowing overflowingNative ∧
        pass.shouldRun (.pair .xyz) overflowingNative = true ∧
        (pass.run (.pair .xyz)).apply overflowingNative =
          (.error (.circuit (.nonFiniteAngle "Z" Binary64.infinity)), overflowingNative) := by
  have hrun : ((Pipeline.ofLevel 1).run (.pair .xyz)).apply overflowing =
      (.error (.circuit (.nonFiniteAngle "Z" Binary64.infinity)), overflowingNative) := by decide +kernel
  exact ⟨hrun, (((failed_passes_leave_no_trace (.pair .xyz)).2.2 _ _ _).2 _).1 hrun⟩

end RotationCircuits
