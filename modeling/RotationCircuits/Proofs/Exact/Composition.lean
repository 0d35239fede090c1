import RotationCircuits.Proofs.Exact.NetOperation

/-!
# The net operator as a canonical form

Read over the real numbers, the net operator of any gates on one qubit exists, is unitary, and is the product of their
matrices up to a phase that makes its upper left entry a length. Where that entry is not zero this choice of the phase is
canonical: two sequences have the same net operator exactly if their products are equal up to a phase
(`stripPhase_eq_iff`). Where it is zero nothing tells the phase, and the product is left as it is (`stripPhase_of_corner`).
-/

namespace RotationCircuits

open Complex Matrix

namespace Operator

/-! ## Unitary operators -/

theorem dagger_mul_self {u : Operator ℝ} (hu : u.toMatrix ∈ unitary Mat) : u.dagger * u = identity := by
  apply toMatrix_injective
  rw [toMatrix_mul, toMatrix_dagger, toMatrix_identity]
  exact (Unitary.mem_iff.1 hu).1

/-- A unitary operator passes the test of unitarity, however small the bound is. -/
theorem isUnitary_of_mem_unitary {u : Operator ℝ} (hu : u.toMatrix ∈ unitary Mat) {bound : ℝ} (hbound : 0 < bound) :
    u.isUnitary bound = true := by
  have herror : u.unitarityError = Real.sqrt (0.0 + 0 + 0 + 0 + 0) := by
    have hzero (z : Amplitude ℝ) : (z - z).normSq = 0 := by
      simp [Amplitude.normSq, Amplitude.sub_re, Amplitude.sub_im]
    simp only [unitarityError, dagger_mul_self hu, identity, hzero]
    rfl
  rw [isUnitary, decide_eq_true_iff, herror]
  norm_num
  exact hbound

/-! ## The phase of the upper left entry -/

/-- Without an upper left entry there is no phase to take off. -/
theorem stripPhase_of_corner {u : Operator ℝ} (h : u.u00.toComplex = 0) : u.stripPhase = u := by
  apply toMatrix_injective
  rw [stripPhase, toMatrix_scale, Amplitude.toComplex_unphase, h]
  simp

/-- The upper left entry has lost its phase, not its length. -/
theorem corner_stripPhase (u : Operator ℝ) : u.stripPhase.u00.im = 0 ∧ 0 ≤ u.stripPhase.u00.re := by
  have hcorner := u.u00_stripPhase
  constructor
  · have him := congrArg Complex.im hcorner
    rwa [ofReal_im] at him
  · have hre := congrArg Complex.re hcorner
    rw [ofReal_re] at hre
    exact (norm_nonneg _).trans_eq hre.symm

theorem corner_stripPhase_eq_zero_iff (u : Operator ℝ) : u.stripPhase.u00.toComplex = 0 ↔ u.u00.toComplex = 0 := by
  rw [u.u00_stripPhase, ofReal_eq_zero, norm_eq_zero]

/-- Operators that are equal without their phases are equal up to a phase. -/
theorem exists_phase_of_stripPhase_eq {u v : Operator ℝ} (h : u.stripPhase = v.stripPhase) :
    ∃ c : ℂ, ‖c‖ = 1 ∧ u.toMatrix = c • v.toMatrix := by
  obtain ⟨c, hc, hu⟩ := u.toMatrix_stripPhase
  obtain ⟨d, hd, hv⟩ := v.toMatrix_stripPhase
  have hne : c ≠ 0 := by
    rintro rfl
    simp at hc
  refine ⟨c⁻¹ * d, by rw [norm_mul, norm_inv, hc, hd, inv_one, one_mul], ?_⟩
  rw [mul_smul, ← hv, ← h, hu, smul_smul, inv_mul_cancel₀ hne, one_smul]

/-- **Taking off the phase is canonical** where there is an upper left entry. -/
theorem stripPhase_eq_iff {u v : Operator ℝ} (hu : u.u00.toComplex ≠ 0) :
    u.stripPhase = v.stripPhase ↔ ∃ c : ℂ, ‖c‖ = 1 ∧ u.toMatrix = c • v.toMatrix := by
  refine ⟨exists_phase_of_stripPhase_eq, ?_⟩
  rintro ⟨c, hc, h⟩
  have hscale : u = v.scale ⟨c.re, c.im⟩ := by
    apply toMatrix_injective
    rw [toMatrix_scale, h]
    rfl
  have hv : v.u00.toComplex ≠ 0 := by
    intro hzero
    apply hu
    rw [hscale]
    show (v.u00 * ⟨c.re, c.im⟩).toComplex = 0
    rw [Amplitude.toComplex_mul, hzero, zero_mul]
  rw [hscale]
  exact stripPhase_scale hv hc

/-- Without an upper left entry operators are told apart with their phases. -/
theorem stripPhase_eq_iff_of_corner {u v : Operator ℝ} (hu : u.u00.toComplex = 0) :
    u.stripPhase = v.stripPhase ↔ u = v := by
  refine ⟨fun h => ?_, fun h => by rw [h]⟩
  have hv : v.u00.toComplex = 0 := by rwa [← corner_stripPhase_eq_zero_iff, ← h, corner_stripPhase_eq_zero_iff]
  rwa [stripPhase_of_corner hu, stripPhase_of_corner hv] at h

end Operator

/-! ## Sequences -/

namespace Sequence

/-- **The net operator of a sequence.** Any gates on one qubit have a net operator. It is unitary, its upper left entry is
real and not negative, and it is the product of the gates, the last one leftmost, up to a phase. If the upper left entry of
the product is not zero, the net operator is that of other gates exactly if the products are equal up to a phase; if it is
zero, exactly if they are equal. -/
theorem net_operator_canonical (q : Qubit) (gates : List (Gate ℝ)) (hgates : ∀ g ∈ gates, g.qubit? = some q) :
    (∃ u, operator gates = .ok u ∧ u.toMatrix ∈ unitary Mat ∧ (∀ bound, 0 < bound → u.isUnitary bound = true) ∧
      u.u00.im = 0 ∧ 0 ≤ u.u00.re ∧ ∃ c : ℂ, ‖c‖ = 1 ∧ u.toMatrix = c • net gates) ∧
    ∀ (r : Qubit) (others : List (Gate ℝ)), (∀ g ∈ others, g.qubit? = some r) →
      (net gates 0 0 ≠ 0 →
        (operator gates = operator others ↔ ∃ c : ℂ, ‖c‖ = 1 ∧ net gates = c • net others)) ∧
      (net gates 0 0 = 0 → (operator gates = operator others ↔ net gates = net others)) := by
  obtain ⟨v, hv, hoperator⟩ := operator_eq_stripPhase hgates
  have hcorner : net gates 0 0 = v.u00.toComplex := by rw [← hv]; rfl
  constructor
  · have hunitary : v.stripPhase.toMatrix ∈ unitary Mat :=
      Operator.stripPhase_mem_unitary (hv ▸ net_mem_unitary gates)
    obtain ⟨him, hre⟩ := v.corner_stripPhase
    obtain ⟨c, hc, hstrip⟩ := v.toMatrix_stripPhase
    exact ⟨v.stripPhase, hoperator, hunitary, fun _ => Operator.isUnitary_of_mem_unitary hunitary, him, hre, c, hc,
      hv ▸ hstrip⟩
  · intro r others hothers
    obtain ⟨w, hw, hother⟩ := operator_eq_stripPhase hothers
    rw [hoperator, hother, Except.ok.injEq, hcorner, ← hv, ← hw]
    exact ⟨Operator.stripPhase_eq_iff, fun hzero =>
      (Operator.stripPhase_eq_iff_of_corner hzero).trans Operator.toMatrix_injective.eq_iff.symm⟩

/-- Half a turn around Z in two steps. -/
noncomputable def twoQuarters : List (Gate ℝ) := [.rotation .z ⟨1⟩ 90.0, .rotation .z ⟨1⟩ 90.0]

/-- The same half turn as a general gate, which has another phase. -/
noncomputable def phaseFlip : List (Gate ℝ) := [.general ⟨0⟩ ⟨0.0, 180.0, 0.0⟩]

/-- Half a turn around X, which has no upper left entry. -/
noncomputable def halfX : List (Gate ℝ) := [.rotation .x ⟨0⟩ 180.0]

/-- Half turns around Y and Z, which make up one around X with the opposite sign. -/
noncomputable def halfYZ : List (Gate ℝ) := [.rotation .y ⟨0⟩ 180.0, .rotation .z ⟨0⟩ 180.0]

theorem net_operator_canonical_halfTurns :
    ((∀ g ∈ twoQuarters, g.qubit? = some ⟨1⟩) ∧ (∀ g ∈ phaseFlip, g.qubit? = some ⟨0⟩) ∧ net twoQuarters 0 0 ≠ 0 ∧
      operator twoQuarters = operator phaseFlip) ∧
    (∀ g ∈ halfX, g.qubit? = some ⟨0⟩) ∧ (∀ g ∈ halfYZ, g.qubit? = some ⟨0⟩) ∧ net halfX 0 0 = 0 ∧
      (∃ c : ℂ, ‖c‖ = 1 ∧ net halfX = c • net halfYZ) ∧ operator halfX ≠ operator halfYZ := by
  have hquarters : ∀ g ∈ twoQuarters, g.qubit? = some ⟨1⟩ := by simp [twoQuarters, Gate.qubit?]
  have hflip : ∀ g ∈ phaseFlip, g.qubit? = some ⟨0⟩ := by simp [phaseFlip, Gate.qubit?]
  have hX : ∀ g ∈ halfX, g.qubit? = some ⟨0⟩ := by simp [halfX, Gate.qubit?]
  have hYZ : ∀ g ∈ halfYZ, g.qubit? = some ⟨0⟩ := by simp [halfYZ, Gate.qubit?]
  have h180 : (180.0 : ℝ) = 180 := by norm_num
  have hzero : (0.0 : ℝ) = 0 := by norm_num
  have hnet : net twoQuarters = rot .z 180 := by
    have hsum : (90.0 : ℝ) + 90.0 = 180 := by norm_num
    simp only [twoQuarters, net, Gate.matrix_rotation, one_mul, rot_mul_rot, hsum]
  have hnetFlip : net phaseFlip = exp (half 180 * I) • rot .z 180 := by
    have hmatrix : net phaseFlip = (⟨0.0, 180.0, 0.0⟩ : Euler ℝ).operator.toMatrix := one_mul _
    rw [hmatrix, Euler.toMatrix_operator, h180, hzero, rot_zero, rot_zero, mul_one, mul_one, add_zero]
  have hnetX : net halfX = rot .x 180 := by
    simp only [halfX, net, Gate.matrix_rotation, one_mul, h180]
  have hnetYZ : net halfYZ = (-1 : ℂ) • rot .x 180 := by
    simp only [halfYZ, net, Gate.matrix_rotation, one_mul, h180, rot_half_turn]
    ext i j
    fin_cases i <;> fin_cases j <;> simp [pauli]
  have hcorner : net twoQuarters 0 0 ≠ 0 := by
    rw [hnet, rot_z_eq]
    exact exp_ne_zero _
  have hcornerX : net halfX 0 0 = 0 := by
    rw [hnetX, rot_half_turn]
    simp [pauli]
  have hphase : ∃ c : ℂ, ‖c‖ = 1 ∧ net twoQuarters = c • net phaseFlip := by
    refine ⟨(exp (half 180 * I))⁻¹, by rw [norm_inv, norm_exp_ofReal_mul_I, inv_one], ?_⟩
    rw [hnet, hnetFlip, smul_smul, inv_mul_cancel₀ (exp_ne_zero _), one_smul]
  have hdiffer : net halfX ≠ net halfYZ := by
    intro h
    have hentry := congrFun (congrFun h 0) 1
    rw [hnetX, hnetYZ, rot_half_turn] at hentry
    simp [pauli, neg_eq_iff_add_eq_zero] at hentry
  obtain ⟨-, hcompare⟩ := net_operator_canonical ⟨1⟩ twoQuarters hquarters
  obtain ⟨-, hcompareX⟩ := net_operator_canonical ⟨0⟩ halfX hX
  refine ⟨⟨hquarters, hflip, hcorner, ((hcompare ⟨0⟩ phaseFlip hflip).1 hcorner).2 hphase⟩, hX, hYZ, hcornerX,
    ⟨-1, by simp, ?_⟩, fun h => hdiffer (((hcompareX ⟨0⟩ halfYZ hYZ).2 hcornerX).1 h)⟩
  rw [hnetX, hnetYZ, smul_smul]
  simp

end Sequence

end RotationCircuits
