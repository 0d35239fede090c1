import RotationCircuits.Binary64
import RotationCircuits.Proofs.Native
import RotationCircuits.Proofs.Run.Splitting

/-!
# Compiled circuits can be run

A circuit that passes the pipeline of an optimization level above 0 consists of valid gates that the target runs, has its
CX gates unchanged and at most three gates of a qubit between them (`compiled_circuit_runnable`). No assumption is made
about the circuit that goes in. Verification is the last pass, but it never finds anything to complain of: the two passes
before it leave native gates only, or fail for another reason.
-/

namespace RotationCircuits

open Hardware (Profile)

variable {α : Type}

/-- A fold fails as one of its steps does. -/
theorem Run.foldlM_eq_error {β σ : Type} {f : σ → β → Except (Error α) σ}
    (hf : ∀ s b e, f s b = .error e → e.isForeignGate = false) {bs : List β} {s : σ} {e : Error α}
    (h : bs.foldlM f s = .error e) : e.isForeignGate = false := by
  induction bs generalizing s with
  | nil => cases h
  | cons b bs ih =>
    rw [List.foldlM_cons] at h
    rcases bind_eq_error.1 h with h | ⟨t, -, h⟩
    · exact hf s b e h
    · exact ih h

theorem Hardware.Profile.checkWidth_eq_error {p : Profile} {width : Nat} {e : Error α} (h : p.checkWidth width = .error e) :
    e.isForeignGate = false := by
  unfold checkWidth at h
  split at h <;> cases h
  rfl

variable [Scalar α] {p : Profile}

/-! ## Optimized runs -/

namespace Run

theorem flush_eq_error {s : Progress α} {q : Qubit} {e : Error α} (h : flush p s q = .error e) :
    e.isForeignGate = false := by
  rcases bind_eq_error.1 h with h | ⟨out, -, h⟩
  · exact Sequence.optimize_eq_error h
  · cases h

theorem step_eq_error {s : Progress α} {g : Gate α} {e : Error α} (h : step p s g = .error e) :
    e.isForeignGate = false := by
  cases g with
  | rotation a q θ => cases h
  | general q u => cases h
  | cx control target =>
    rcases bind_eq_error.1 h with h | ⟨r₁, -, h⟩
    · exact flush_eq_error h
    rcases bind_eq_error.1 h with h | ⟨r₂, -, h⟩
    · exact flush_eq_error h
    · cases h

theorem optimizeGates_eq_error {gs : List (Gate α)} {e : Error α} (h : optimizeGates p gs = .error e) :
    e.isForeignGate = false := by
  rcases bind_eq_error.1 h with h | ⟨s, -, h⟩
  · exact foldlM_eq_error (fun _ _ _ => step_eq_error) h
  rcases bind_eq_error.1 h with h | ⟨t, -, h⟩
  · exact foldlM_eq_error (fun _ _ _ => flush_eq_error) h
  · cases h

/-- What is put out: native rotations, and the CX gates taken in. -/
structure Emitted (p : Profile) (gs : List (Gate α)) (s : Progress α) : Prop where
  cx : s.done.filter Gate.isCx = gs.filter Gate.isCx
  native : ∀ g ∈ s.done, g.isCx = true ∨ p.supports g = true

theorem Emitted.flush {gs : List (Gate α)} {s t : Progress α} {q : Qubit} (hs : Emitted p gs s)
    (h : flush p s q = .ok t) : Emitted p gs t := by
  obtain ⟨out, hout, rfl⟩ := flush_eq_ok_iff.1 h
  have hrot : p.RotationsOn q out := rotationsOn_of_run hout
  refine ⟨?_, fun g hg => ?_⟩
  · rw [List.filter_append, hrot.filter_isCx, List.append_nil]
    exact hs.cx
  · rcases List.mem_append.1 hg with hg | hg
    · exact hs.native g hg
    · exact .inr (hrot.supports g hg)

theorem Emitted.step {gs : List (Gate α)} {s t : Progress α} {g : Gate α} (hs : Emitted p gs s)
    (h : step p s g = .ok t) : Emitted p (gs ++ [g]) t := by
  rcases step_cases h with ⟨control, target, r₁, r₂, rfl, h₁, h₂, rfl⟩ | ⟨⟨q, hq⟩, rfl⟩
  · have hr := (hs.flush h₁).flush h₂
    refine ⟨?_, fun g hg => ?_⟩
    · rw [List.filter_append, List.filter_append, hr.cx]
    · rcases List.mem_append.1 hg with hg | hg
      · exact hr.native g hg
      · rw [List.mem_singleton.1 hg]
        exact .inl rfl
  · refine ⟨?_, hs.native⟩
    rw [List.filter_append, hs.cx]
    simp [Gate.isCx_eq_false_of_qubit? hq]

theorem emitted_optimizeGates {gs out : List (Gate α)} (h : optimizeGates p gs = .ok out) :
    Emitted p gs ⟨out, []⟩ := by
  obtain ⟨s, hone, hs, hfinish⟩ := optimizeGates_eq_ok (Q := Emitted p)
    ⟨rfl, by simp⟩ (fun gs s g t _ hs h => hs.step h) h
  exact finish_eq_ok hone hfinish (fun u v q hu hv => hu.flush hv) hs

/-- At most three gates of a qubit stand between two CX gates of the result. -/
theorem countP_isOn_le_three {gs out mid : List (Gate α)} (h : optimizeGates p gs = .ok out) (hmid : mid <:+: out)
    (hcx : ∀ g ∈ mid, g.isCx = false) (q : Qubit) : mid.countP (isOn q) ≤ 3 := by
  obtain ⟨out, hout, hle⟩ := Runs.exists_run_of_infix (q := q) hmid hcx
  obtain ⟨run, -, hrun⟩ := (forall₂_optimize_runs h q).exists_run hout
  exact Nat.le_trans hle (Sequence.length_optimize_le hrun)

end Run

/-! ## Passes -/

/-- What the optimization of runs leaves, also if there was nothing to optimize. -/
structure Compiled (p : Profile) (c : Circuit α) : Prop where
  fits : ∀ g ∈ c.gates, g.Fits c.width
  native : ∀ g ∈ c.gates, g.isCx = true ∨ p.supports g = true
  short : ∀ mid, mid <:+: c.gates → (∀ g ∈ mid, g.isCx = false) → ∀ q, mid.countP (Run.isOn q) ≤ 3

theorem Compiled.of_outcome {c d : Circuit α} (h : Pass.runOptimization.outcome p c = .ok d) : Compiled p d := by
  rcases Pass.outcome_eq_ok h with h | ⟨hskip, rfl⟩
  · obtain ⟨-, gs, hgs, hd⟩ := Pass.output_eq_ok_iff.1 h
    obtain ⟨-, hfits, rfl⟩ := Circuit.ofGates_eq_ok_iff.1 hd
    exact ⟨hfits, (Run.emitted_optimizeGates hgs).native, fun mid hmid hcx q => Run.countP_isOn_le_three hgs hmid hcx q⟩
  · have hnil : d.gates = [] := by simpa [Pass.shouldRun] using hskip
    refine ⟨by simp [hnil], by simp [hnil], fun mid hmid _ q => ?_⟩
    rw [hnil, List.infix_nil] at hmid
    simp [hmid]

/-- A target that is wide enough runs all gates of a compiled circuit. -/
theorem Compiled.supports {c : Circuit α} (hc : Compiled p c) (hw : c.width ≤ p.width) :
    ∀ g ∈ c.gates, p.supports g = true := by
  intro g hg
  rcases hc.native g hg with hcx | hs
  · cases g with
    | cx control target => exact Profile.supports_cx ((hc.fits _ hg).mono hw)
    | rotation a q θ => cases hcx
    | general q e => cases hcx
  · exact hs

/-- No pass removes, adds or moves a CX. -/
theorem Pass.filter_isCx_output {pass : Pass} {c d : Circuit α} (h : pass.output p c = .ok d) :
    d.gates.filter Gate.isCx = c.gates.filter Gate.isCx := by
  obtain ⟨-, h⟩ := output_eq_ok_iff.1 h
  cases pass with
  | nativeSubstitution =>
    obtain ⟨gs, hgs, hd⟩ := h
    rw [(Circuit.ofGates_eq_ok_iff.1 hd).2.2]
    exact Gate.filter_isCx_allToNative hgs
  | runOptimization =>
    obtain ⟨gs, hgs, hd⟩ := h
    rw [(Circuit.ofGates_eq_ok_iff.1 hd).2.2]
    exact (Run.emitted_optimizeGates hgs).cx
  | nativeVerification => rw [h.2]

theorem Pass.filter_isCx_outcome {pass : Pass} {c d : Circuit α} (h : pass.outcome p c = .ok d) :
    d.gates.filter Gate.isCx = c.gates.filter Gate.isCx := by
  rcases outcome_eq_ok h with h | ⟨-, rfl⟩
  · exact filter_isCx_output h
  · rfl

theorem rebuild_eq_error {c : Circuit α} {gs : List (Gate α)} {e : Error α} (h : c.rebuild gs = .error e) :
    e.isForeignGate = false := by
  obtain ⟨x, rfl⟩ := Circuit.exists_circuit_of_rebuild_eq_error h
  rfl

/-- Only verification complains of a gate that the target does not run. -/
theorem Pass.output_eq_error {pass : Pass} {c : Circuit α} {e : Error α} (hpass : pass ≠ nativeVerification)
    (h : pass.output p c = .error e) : e.isForeignGate = false := by
  unfold output at h
  rcases bind_eq_error.1 h with h | ⟨_, -, h⟩
  · exact Profile.checkWidth_eq_error h
  cases pass with
  | nativeSubstitution =>
    rcases bind_eq_error.1 h with h | ⟨gs, -, h⟩
    · exact Gate.allToNative_eq_error h
    · exact rebuild_eq_error h
  | runOptimization =>
    rcases bind_eq_error.1 h with h | ⟨gs, -, h⟩
    · exact Run.optimizeGates_eq_error h
    · exact rebuild_eq_error h
  | nativeVerification => exact absurd rfl hpass

theorem Compiled.verification_eq_error {c : Circuit α} {e : Error α} (hc : Compiled p c)
    (h : Pass.nativeVerification.output p c = .error e) : e.isForeignGate = false := by
  unfold Pass.output at h
  rcases bind_eq_error.1 h with h | ⟨_, hwidth, h⟩
  · exact Profile.checkWidth_eq_error h
  -- Once the width is right, every gate is supported and the search finds nothing.
  have hw := Profile.checkWidth_eq_ok_iff.1 hwidth
  have hnone : c.gates.find? (fun g => !p.supports g) = none := by
    rw [List.find?_eq_none]
    intro g hg
    simp [hc.supports hw g hg]
  rw [hnone] at h
  cases h

/-! ## Pipelines -/

theorem Pipeline.ofLevel_of_pos {level : Nat} (h : 1 ≤ level) :
    ofLevel level = [.nativeSubstitution, .runOptimization, .nativeVerification] := by
  rw [ofLevel, if_neg (by omega)]

/-- **Compiled circuits can be run.** Whatever circuit goes in: if the pipeline of a level above 0 succeeds, then all gates
of the result are valid, in range and run by the target, the CX gates are those of the input, and at most three gates of a
qubit stand between two of them. At no level does a pipeline fail with a gate that the target does not run. -/
theorem compiled_circuit_runnable (p : Profile) (c : Circuit α) :
    (∀ level, 1 ≤ level → ∀ d : Circuit α, ((Pipeline.ofLevel level).run p).apply c = (.ok (), d) →
      (∀ g ∈ d.gates, g.validate = .ok () ∧ (∀ q ∈ g.qubits, q.index.toNat < d.width) ∧ p.supports g = true) ∧
        d.width ≤ p.width ∧ d.gates.filter Gate.isCx = c.gates.filter Gate.isCx ∧
        ∀ mid, mid <:+: d.gates → (∀ g ∈ mid, g.isCx = false) → ∀ q, mid.countP (Run.isOn q) ≤ 3) ∧
      ∀ (level : Nat) (e : Error α) (d : Circuit α),
        ((Pipeline.ofLevel level).run p).apply c = (.error e, d) → e.isForeignGate = false := by
  constructor
  · intro level hlevel d h
    rw [Pipeline.ofLevel_of_pos hlevel] at h
    obtain ⟨c₁, h₁, h⟩ := Pipeline.run_cons_eq_ok_iff.1 h
    obtain ⟨c₂, h₂, h⟩ := Pipeline.run_cons_eq_ok_iff.1 h
    obtain ⟨c₃, h₃, h⟩ := Pipeline.run_cons_eq_ok_iff.1 h
    cases h
    have hc := Compiled.of_outcome h₂
    have hverified : Pass.nativeVerification.output p c₂ = .ok d := h₃
    obtain ⟨hw, -, rfl⟩ := Pass.output_eq_ok_iff.1 hverified
    refine ⟨fun g hg => ⟨(hc.fits g hg).1, (hc.fits g hg).2, hc.supports hw g hg⟩, hw, ?_, hc.short⟩
    rw [Pass.filter_isCx_outcome h₂, Pass.filter_isCx_outcome h₁]
  · intro level e d h
    rcases Nat.eq_zero_or_pos level with rfl | hlevel
    · rcases Pipeline.run_cons_eq_error_iff.1 h with ⟨h, -⟩ | ⟨b, -, h⟩
      · exact Pass.output_eq_error (by simp) (Pass.outcome_eq_error h)
      · cases h
    · rw [Pipeline.ofLevel_of_pos hlevel] at h
      rcases Pipeline.run_cons_eq_error_iff.1 h with ⟨h, -⟩ | ⟨c₁, -, h⟩
      · exact Pass.output_eq_error (by simp) (Pass.outcome_eq_error h)
      rcases Pipeline.run_cons_eq_error_iff.1 h with ⟨h, -⟩ | ⟨c₂, h₂, h⟩
      · exact Pass.output_eq_error (by simp) (Pass.outcome_eq_error h)
      rcases Pipeline.run_cons_eq_error_iff.1 h with ⟨h, -⟩ | ⟨c₃, -, h⟩
      · exact (Compiled.of_outcome h₂).verification_eq_error (Pass.outcome_eq_error h)
      · cases h

/-- Six rotations around a CX, four of them before it. -/
def crowded : Circuit Float where
  width := 2
  gates := [.rotation .x ⟨1⟩ 90.0, .rotation .z ⟨0⟩ 30.0, .rotation .x ⟨1⟩ 90.0, .rotation .z ⟨0⟩ 30.0, .cx ⟨0⟩ ⟨1⟩,
    .rotation .y ⟨0⟩ 40.0, .rotation .y ⟨0⟩ 40.0]

/-- What the pipeline leaves of `crowded`. -/
def crowdedCompiled : Circuit Float where
  width := 2
  gates := [.rotation .z ⟨0⟩ 60.0, .rotation .x ⟨1⟩ 180.0, .cx ⟨0⟩ ⟨1⟩, .rotation .y ⟨0⟩ 80.0]

theorem compiled_circuit_runnable_crowded :
    ((Pipeline.ofLevel 1).run (.pair .xyz)).apply crowded = (.ok (), crowdedCompiled) ∧
      (∀ g ∈ crowdedCompiled.gates, (Profile.pair .xyz).supports g = true) ∧
      crowdedCompiled.gates.filter Gate.isCx = crowded.gates.filter Gate.isCx := by
  have hrun : ((Pipeline.ofLevel 1).run (.pair .xyz)).apply crowded = (.ok (), crowdedCompiled) := by decide +kernel
  obtain ⟨hgates, -, hcx, -⟩ := (compiled_circuit_runnable (.pair .xyz) crowded).1 1 (by omega) crowdedCompiled hrun
  exact ⟨hrun, fun g hg => (hgates g hg).2.2, hcx⟩

end RotationCircuits
