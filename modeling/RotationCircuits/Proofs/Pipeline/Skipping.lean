import RotationCircuits.Proofs.Invariant
import RotationCircuits.Proofs.Pipeline.Failure
import RotationCircuits.Proofs.Runnable

/-!
# Skipped passes

A pipeline leaves out a pass that has nothing to do. On a circuit that fits on the target this cannot be told from running
the pass, which would rebuild the same circuit. On a wider circuit it can, since every pass checks the width and a pass that
is left out does not: `skipping_unobservable_iff` says exactly when, and `wide_circuit_accepted` shows a circuit that goes
through at level 0 although no pass would take it.
-/

namespace RotationCircuits

open Hardware (Profile)

variable {α : Type} [Scalar α] {p : Profile}

/-! ## Gates that are native already -/

namespace Gate

theorem toNative_of_supports {g : Gate α} (hfit : g.Fits p.width) (hs : p.supports g = true) : g.toNative p = .ok [g] := by
  rw [toNative_eq_ok_iff, if_pos hs]
  exact ⟨hfit, rfl⟩

theorem allToNative_of_supportsAll {gs : List (Gate α)} (hfit : ∀ g ∈ gs, g.Fits p.width) (hs : p.supportsAll gs = true) :
    allToNative p gs = .ok gs := by
  induction gs with
  | nil => rfl
  | cons g gs ih =>
    rw [List.forall_mem_cons] at hfit
    simp only [Profile.supportsAll, List.all_cons, Bool.and_eq_true] at hs ih
    rw [allToNative_cons_eq_ok_iff]
    exact ⟨[g], gs, toNative_of_supports hfit.1 hs.1, ih hfit.2 hs.2, rfl⟩

end Gate

/-! ## A single pass -/

theorem Circuit.WellFormed.ofGates {c : Circuit α} (hc : c.WellFormed) : Circuit.ofGates c.width c.gates = .ok c :=
  ofGates_eq_ok_iff.2 ⟨hc.1, hc.2, rfl⟩

namespace Pass

variable {pass : Pass} {c : Circuit α}

/-- A pass that has nothing to do makes the same circuit again. -/
theorem output_of_idle (hc : c.WellFormed) (hw : c.width ≤ p.width) (hidle : pass.shouldRun p c = false) :
    pass.output p c = .ok c := by
  rw [output_eq_ok_iff]
  refine ⟨hw, ?_⟩
  cases pass with
  | nativeSubstitution =>
    have hs : p.supportsAll c.gates = true := by simpa [shouldRun] using hidle
    exact ⟨c.gates, Gate.allToNative_of_supportsAll (fun g hg => Gate.Fits.mono (hc.2 g hg) hw) hs, hc.ofGates⟩
  | runOptimization =>
    have hnil : c.gates = [] := by simpa [shouldRun] using hidle
    have hbuild := hc.ofGates
    rw [hnil] at hbuild ⊢
    exact ⟨[], rfl, hbuild⟩
  | nativeVerification => cases hidle

/-- Every pass checks the width first. -/
theorem output_of_wide (pass : Pass) (hw : p.width < c.width) :
    pass.output p c = .error (.tooWide c.width p.width) := by
  unfold output
  rw [Profile.checkWidth, if_neg (by omega)]
  rfl

theorem wellFormed_output {d : Circuit α} (hc : c.WellFormed) (h : pass.output p c = .ok d) :
    d.WellFormed ∧ d.width = c.width := by
  have hkeeps := Edit.Keeps.pass pass p c hc
  rwa [apply_run_eq_ok_iff.2 h] at hkeeps

end Pass

/-! ## Pipelines with and without skipping -/

namespace Pipeline

/-- Runs all passes, also those that have nothing to do, up to the first failure. -/
def runEvery (p : Profile) : Pipeline → Edit α Unit
  | [] => pure ()
  | pass :: passes => do
    pass.run p
    runEvery p passes

variable {passes : Pipeline} {c : Circuit α}

theorem apply_runEvery_cons (p : Profile) (pass : Pass) (passes : Pipeline) (c : Circuit α) :
    (runEvery p (pass :: passes)).apply c =
      match pass.output p c with
      | .ok d => (runEvery p passes).apply d
      | .error e => (.error e, c) := by
  rw [runEvery, Edit.apply_bind, Pass.apply_run]
  cases pass.output p c <;> rfl

/-- On a circuit that fits on the target the passes that are left out would not have done anything. -/
theorem apply_run_eq_runEvery (hc : c.WellFormed) (hw : c.width ≤ p.width) :
    (passes.run p).apply c = (passes.runEvery p).apply c := by
  induction passes generalizing c with
  | nil => rfl
  | cons pass passes ih =>
    have hstep : pass.outcome p c = pass.output p c := by
      cases hrun : pass.shouldRun p c with
      | true => rw [Pass.outcome, if_pos hrun]
      | false => rw [Pass.outcome, hrun, Pass.output_of_idle hc hw hrun, if_neg Bool.false_ne_true]
    rw [apply_run_cons, apply_runEvery_cons, hstep]
    cases hout : pass.output p c with
    | error e => rfl
    | ok d =>
      obtain ⟨hd, hwidth⟩ := Pass.wellFormed_output hc hout
      exact ih hd (hwidth ▸ hw)

section Wide

variable (hw : p.width < c.width)

include hw

/-- The first pass that has something to do rejects a wide circuit. -/
theorem apply_run_of_wide :
    (passes.run p).apply c =
      if ∃ pass ∈ passes, pass.shouldRun p c = true then (.error (.tooWide c.width p.width), c) else (.ok (), c) := by
  induction passes with
  | nil => simp [run]
  | cons pass passes ih =>
    rw [apply_run_cons, Pass.outcome, Pass.output_of_wide pass hw]
    cases hrun : pass.shouldRun p c with
    | true => simp [hrun]
    | false => simp [hrun, ih]

theorem apply_runEvery_of_wide (hne : passes ≠ []) :
    (passes.runEvery p).apply c = (.error (.tooWide c.width p.width), c) := by
  obtain ⟨pass, passes, rfl⟩ := List.exists_cons_of_ne_nil hne
  rw [apply_runEvery_cons, Pass.output_of_wide pass hw]

/-- Verification always runs, so only the pipeline without it can let a wide circuit through. -/
theorem apply_run_ofLevel_of_wide (level : Nat) :
    ((ofLevel level).run p).apply c =
      if 1 ≤ level ∨ p.supportsAll c.gates = false then (.error (.tooWide c.width p.width), c) else (.ok (), c) := by
  rw [apply_run_of_wide hw]
  refine if_congr ?_ rfl rfl
  rcases Nat.eq_zero_or_pos level with rfl | hlevel
  · simp [ofLevel, Pass.shouldRun]
  · rw [ofLevel_of_pos hlevel]
    simp [Pass.shouldRun, Nat.one_le_iff_ne_zero, Nat.ne_of_gt hlevel]

end Wide

theorem apply_run_eq_runEvery_iff (hc : c.WellFormed) :
    (passes.run p).apply c = (passes.runEvery p).apply c ↔
      c.width ≤ p.width ∨ passes = [] ∨ ∃ pass ∈ passes, pass.shouldRun p c = true := by
  rcases Nat.lt_or_ge p.width c.width with hw | hw
  · by_cases hne : passes = []
    · simp [hne, run, runEvery]
    · rw [apply_run_of_wide hw, apply_runEvery_of_wide hw hne]
      by_cases hactive : ∃ pass ∈ passes, pass.shouldRun p c = true
      · simp [hactive]
      · simp only [hactive, if_false, hne, or_false]
        simpa using hw
  · simp [apply_run_eq_runEvery hc hw, hw]

end Pipeline

/-- **When skipping cannot be told from running.** A pass that has nothing to do would succeed and leave a well-formed
circuit as it is, unless the circuit is wider than the target. So a pipeline does the same as one that runs every pass,
except on a wide circuit where no pass has something to do. Wide circuits are rejected at all levels above 0, but at level 0
only if they have a gate that is not native. -/
theorem skipping_unobservable_iff (p : Profile) (c : Circuit α) (hc : c.WellFormed) :
    (∀ pass : Pass, pass.shouldRun p c = false →
      (pass.run p).apply c = if c.width ≤ p.width then (.ok (), c) else (.error (.tooWide c.width p.width), c)) ∧
    (∀ passes : Pipeline,
      (passes.run p).apply c = (passes.runEvery p).apply c ↔
        c.width ≤ p.width ∨ passes = [] ∨ ∃ pass ∈ passes, pass.shouldRun p c = true) ∧
    (p.width < c.width → ∀ level,
      ((Pipeline.ofLevel level).run p).apply c =
        if 1 ≤ level ∨ p.supportsAll c.gates = false then (.error (.tooWide c.width p.width), c) else (.ok (), c)) := by
  refine ⟨fun pass hidle => ?_, fun passes => Pipeline.apply_run_eq_runEvery_iff hc, Pipeline.apply_run_ofLevel_of_wide⟩
  split
  · next hw => exact Pass.apply_run_eq_ok_iff.2 (Pass.output_of_idle hc hw hidle)
  · next hw => exact Pass.apply_run_eq_error_iff.2 ⟨Pass.output_of_wide pass (by omega), rfl⟩

/-- A native gate on the second of two qubits. -/
def secondQubit : Circuit Float where
  width := 2
  gates := [.rotation .x ⟨1⟩ 90.0]

theorem wellFormed_secondQubit : secondQubit.WellFormed := by
  unfold Circuit.WellFormed
  decide +kernel

theorem skipping_unobservable_iff_secondQubit :
    secondQubit.WellFormed ∧
      ((Pipeline.ofLevel 0).run (.pair .xyz)).apply secondQubit =
        ((Pipeline.ofLevel 0).runEvery (.pair .xyz)).apply secondQubit ∧
      ((Pipeline.ofLevel 1).run .standard).apply secondQubit = (.error (.tooWide 2 1), secondQubit) := by
  refine ⟨wellFormed_secondQubit, ?_, ?_⟩
  · exact ((skipping_unobservable_iff (.pair .xyz) _ wellFormed_secondQubit).2.1 _).2 (.inl (by decide))
  · exact (skipping_unobservable_iff .standard _ wellFormed_secondQubit).2.2 (by decide) 1

/-- A target of one qubit accepts a gate on a second one at level 0. The only pass there is left out; it would have
rejected the circuit. -/
theorem wide_circuit_accepted :
    secondQubit.WellFormed ∧ Pass.nativeSubstitution.shouldRun .standard secondQubit = false ∧
      (Pass.nativeSubstitution.run .standard).apply secondQubit = (.error (.tooWide 2 1), secondQubit) ∧
      ((Pipeline.ofLevel 0).runEvery .standard).apply secondQubit = (.error (.tooWide 2 1), secondQubit) ∧
      ((Pipeline.ofLevel 0).run .standard).apply secondQubit = (.ok (), secondQubit) := by
  refine ⟨wellFormed_secondQubit, ?_⟩
  decide +kernel

end RotationCircuits
