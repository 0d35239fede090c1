import Mathlib.Analysis.CStarAlgebra.Matrix
import Mathlib.Analysis.SpecialFunctions.Trigonometric.Bounds
import Mathlib.Analysis.Real.Pi.Bounds
import RotationCircuits.Proofs.Exact.Rotation

/-!
# Nearness up to a phase

Two matrices are near if they differ little, in the operator norm, once one of them is multiplied by a phase. Errors add up
along a chain, and unitary factors on either side do not change them; so an error made at one place of a product counts
once, however long the product is. A rotation moves by at most a fiftieth of the change of its angle in degrees.
-/

namespace RotationCircuits

open Complex Matrix
open scoped Matrix.Norms.L2Operator

/-- Nearness up to a phase. -/
def PhaseNear (ε : ℝ) (A B : Mat) : Prop := ∃ c : ℂ, ‖c‖ = 1 ∧ ‖A - c • B‖ ≤ ε

namespace PhaseNear

variable {A B C U : Mat} {ε δ : ℝ}

theorem of_eq_smul {c : ℂ} (hc : ‖c‖ = 1) (h : A = c • B) : PhaseNear 0 A B := ⟨c, hc, by simp [h]⟩

theorem refl (A : Mat) : PhaseNear 0 A A := of_eq_smul (by simp) (one_smul ℂ A).symm

theorem mono (h : PhaseNear ε A B) (hle : ε ≤ δ) : PhaseNear δ A B := by
  obtain ⟨c, hc, h⟩ := h
  exact ⟨c, hc, h.trans hle⟩

theorem trans (h₁ : PhaseNear ε A B) (h₂ : PhaseNear δ B C) : PhaseNear (ε + δ) A C := by
  obtain ⟨c, hc, h₁⟩ := h₁
  obtain ⟨d, hd, h₂⟩ := h₂
  refine ⟨c * d, by rw [norm_mul, hc, hd, one_mul], ?_⟩
  calc ‖A - (c * d) • C‖ = ‖(A - c • B) + c • (B - d • C)‖ := by
        congr 1
        module
    _ ≤ ‖A - c • B‖ + ‖c • (B - d • C)‖ := norm_add_le _ _
    _ ≤ ε + δ := by
        rw [norm_smul, hc, one_mul]
        exact add_le_add h₁ h₂

theorem symm (h : PhaseNear ε A B) : PhaseNear ε B A := by
  obtain ⟨c, hc, h⟩ := h
  have hne : c ≠ 0 := by
    rintro rfl
    simp at hc
  refine ⟨c⁻¹, by simp [hc], ?_⟩
  have hsub : B - c⁻¹ • A = -(c⁻¹ • (A - c • B)) := by
    rw [smul_sub, smul_smul, inv_mul_cancel₀ hne]
    module
  rw [hsub, norm_neg, norm_smul, norm_inv, hc, inv_one, one_mul]
  exact h

theorem mul_right (h : PhaseNear ε A B) (hU : U ∈ unitary Mat) : PhaseNear ε (A * U) (B * U) := by
  obtain ⟨c, hc, h⟩ := h
  refine ⟨c, hc, ?_⟩
  rw [← smul_mul_assoc, ← sub_mul, CStarRing.norm_mul_mem_unitary _ hU]
  exact h

theorem mul_left (h : PhaseNear ε A B) (hU : U ∈ unitary Mat) : PhaseNear ε (U * A) (U * B) := by
  obtain ⟨c, hc, h⟩ := h
  refine ⟨c, hc, ?_⟩
  rw [← mul_smul_comm, ← mul_sub, CStarRing.norm_mem_unitary_mul _ hU]
  exact h

/-- The errors of two factors add up in the product. -/
theorem mul {D : Mat} (h₁ : PhaseNear ε A B) (h₂ : PhaseNear δ C D) (hB : B ∈ unitary Mat) (hC : C ∈ unitary Mat) :
    PhaseNear (ε + δ) (A * C) (B * D) :=
  (h₁.mul_right hC).trans (h₂.mul_left hB)

end PhaseNear

/-- No entry of a matrix is larger than its norm. -/
theorem norm_entry_le (A : Mat) (i j : Fin 2) : ‖A i j‖ ≤ ‖A‖ := by
  have h := Matrix.l2_opNorm_mulVec A (EuclideanSpace.single j 1)
  have hone : ‖EuclideanSpace.single j (1 : ℂ)‖ = 1 := by simp
  rw [hone, mul_one] at h
  refine le_trans ?_ h
  have hcoord := PiLp.norm_apply_le (WithLp.toLp 2 (A *ᵥ (EuclideanSpace.single j (1 : ℂ)).ofLp)) i
  simpa using hcoord

/-! ## Rotations -/

theorem pauli_mem_unitary (a : Axis) : pauli a ∈ unitary Mat := by
  rw [Unitary.mem_iff, star_pauli, pauli_mul_self]
  exact ⟨rfl, rfl⟩

theorem norm_rot_sub_rot_le (a : Axis) (s t : ℝ) : ‖rot a s - rot a t‖ ≤ |s - t| / 50 := by
  have hhalf : |half s - half t| ≤ |s - t| / 100 := by
    have heq : half s - half t = (s - t) * (Real.pi / 360) := by
      unfold half
      ring
    rw [heq, abs_mul, abs_of_pos (by positivity : (0 : ℝ) < Real.pi / 360)]
    have hpi := Real.pi_lt_d2
    have := abs_nonneg (s - t)
    nlinarith
  have hcos := Real.abs_cos_sub_cos_le (half s) (half t)
  have hsin := Real.abs_sin_sub_sin_le (half s) (half t)
  have hsplit : rot a s - rot a t =
      ((Real.cos (half s) - Real.cos (half t) : ℝ) : ℂ) • (1 : Mat) -
        (((Real.sin (half s) - Real.sin (half t) : ℝ) : ℂ) * I) • pauli a := by
    simp only [rot, ofReal_sub]
    module
  calc ‖rot a s - rot a t‖ ≤ |Real.cos (half s) - Real.cos (half t)| + |Real.sin (half s) - Real.sin (half t)| := by
        rw [hsplit]
        refine (norm_sub_le _ _).trans ?_
        rw [norm_smul, norm_smul, norm_mul, norm_I, norm_one, CStarRing.norm_of_mem_unitary (pauli_mem_unitary a),
          norm_real, norm_real, Real.norm_eq_abs, Real.norm_eq_abs, mul_one, mul_one, mul_one]
    _ ≤ |s - t| / 50 := by linarith

theorem phaseNear_rot (a : Axis) (s t : ℝ) : PhaseNear (|s - t| / 50) (rot a s) (rot a t) :=
  ⟨1, by simp, by rw [one_smul]; exact norm_rot_sub_rot_le a s t⟩

/-- Normalizing an angle changes the sign of its rotation at most. -/
theorem phaseNear_rot_normalize (a : Axis) (t : ℝ) : PhaseNear 0 (rot a (Angle.normalize t)) (rot a t) := by
  obtain ⟨k, hk, -⟩ := Angle.exists_normalize_eq t
  obtain ⟨c, hc, h⟩ := exists_rot_sub_turns a t k
  rw [hk]
  exact .of_eq_smul hc h

/-- Leaving out a rotation costs as much as its angle is off a whole number of turns. -/
theorem phaseNear_one (a : Axis) (t : ℝ) : PhaseNear (Angle.offTurns t / 50) 1 (rot a t) := by
  obtain ⟨c, hc, hrot⟩ := exists_rot_sub_turns a t (round (t / 360))
  have hnear := phaseNear_rot a 0 (t - 360 * round (t / 360))
  rw [rot_zero, zero_sub, abs_neg] at hnear
  have hsum := hnear.trans (.of_eq_smul hc hrot)
  rwa [add_zero] at hsum

end RotationCircuits
