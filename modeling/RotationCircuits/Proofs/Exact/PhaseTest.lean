import Mathlib.Analysis.Matrix.Normed
import RotationCircuits.Proofs.Exact.Synthesis

/-!
# What the test of equality up to a phase measures

The test compares one number, the length of the overlap `tr (A† B)`, with 2. For unitary matrices that number is a distance:
`‖B - c A‖² = 4 - 2 Re (c̄ tr (A† B))` in the Frobenius norm for every phase `c` (`norm_sub_smul_sq`), and the best phase turns
the overlap into its length (`exists_norm_sub_smul_sq`). So the test accepts two operators exactly if they are near in that
norm for some phase, and the overlap has length 2 exactly if they are equal for some phase.
-/

namespace RotationCircuits

open Complex Matrix
open scoped Matrix.Norms.Frobenius

/-! ## Overlap and distance -/

/-- The overlap of two matrices, their inner product as vectors of entries. -/
noncomputable def overlap (A B : Mat) : ℂ := (star A * B).trace

theorem frobenius_norm_sq (A : Mat) : ‖A‖ ^ 2 = (overlap A A).re := by
  have hsum : 0 ≤ ∑ i, ∑ j, ‖A i j‖ ^ 2 := Finset.sum_nonneg fun i _ => Finset.sum_nonneg fun j _ => sq_nonneg _
  have hoverlap : overlap A A = ((∑ i, ∑ j, ‖A i j‖ ^ 2 : ℝ) : ℂ) := by
    push_cast
    rw [Finset.sum_comm]
    simp only [overlap, Matrix.trace, Matrix.diag_apply, Matrix.mul_apply, Matrix.star_apply, star_def, conj_mul']
  simp_rw [frobenius_norm_def, Real.rpow_two]
  rw [← Real.sqrt_eq_rpow, Real.sq_sqrt hsum, hoverlap, ofReal_re]

theorem overlap_comm (A B : Mat) : overlap B A = star (overlap A B) := by
  rw [overlap, overlap, star_eq_conjTranspose, star_eq_conjTranspose, ← trace_conjTranspose, conjTranspose_mul,
    conjTranspose_conjTranspose]

theorem overlap_smul_left (c : ℂ) (A B : Mat) : overlap (c • A) B = star c * overlap A B := by
  rw [overlap, overlap, star_smul, smul_mul_assoc, trace_smul, smul_eq_mul]

theorem overlap_smul_right (c : ℂ) (A B : Mat) : overlap A (c • B) = c * overlap A B := by
  rw [overlap, overlap, mul_smul_comm, trace_smul, smul_eq_mul]

theorem overlap_sub_left (A B C : Mat) : overlap (A - B) C = overlap A C - overlap B C := by
  rw [overlap, overlap, overlap, star_sub, sub_mul, trace_sub]

theorem overlap_sub_right (A B C : Mat) : overlap A (B - C) = overlap A B - overlap A C := by
  rw [overlap, overlap, overlap, mul_sub, trace_sub]

theorem overlap_self {A : Mat} (hA : A ∈ unitary Mat) : overlap A A = 2 := by
  rw [overlap, (Unitary.mem_iff.1 hA).1, trace_one]
  simp

section Distance

variable {A B : Mat} {c : ℂ}

/-- **The distance for a given phase** is read off the overlap. -/
theorem norm_sub_smul_sq (hA : A ∈ unitary Mat) (hB : B ∈ unitary Mat) (hc : ‖c‖ = 1) :
    ‖B - c • A‖ ^ 2 = 4 - 2 * (star c * overlap A B).re := by
  have hunit : star c * c = 1 := by
    rw [star_def, conj_mul', hc]
    simp
  have hcross : c * overlap B A = star (star c * overlap A B) := by
    rw [overlap_comm A B, star_mul', star_star]
  have hexpand : overlap (B - c • A) (B - c • A) =
      2 - star (star c * overlap A B) - star c * overlap A B + star c * c * 2 := by
    simp only [overlap_sub_left, overlap_sub_right, overlap_smul_left, overlap_smul_right, overlap_self hA,
      overlap_self hB]
    linear_combination -hcross
  rw [frobenius_norm_sq, hexpand, hunit]
  simp only [star_def, add_re, sub_re, conj_re, one_mul]
  norm_num
  ring

/-- Some phase turns a number into its length. -/
theorem exists_phase_mul_eq_norm (z : ℂ) : ∃ c : ℂ, ‖c‖ = 1 ∧ star c * z = ‖z‖ := by
  refine ⟨exp (arg z * I), norm_exp_ofReal_mul_I _, ?_⟩
  nth_rewrite 2 [← norm_mul_exp_arg_mul_I z]
  rw [mul_left_comm, star_def, conj_mul', norm_exp_ofReal_mul_I]
  simp

/-- No phase does better. -/
theorem re_phase_mul_le_norm (hc : ‖c‖ = 1) (z : ℂ) : (star c * z).re ≤ ‖z‖ := by
  refine (re_le_norm _).trans_eq ?_
  rw [norm_mul, norm_star, hc, one_mul]

/-- **The distance for the best phase** is read off the length of the overlap. -/
theorem exists_norm_sub_smul_sq (hA : A ∈ unitary Mat) (hB : B ∈ unitary Mat) :
    ∃ c : ℂ, ‖c‖ = 1 ∧ ‖B - c • A‖ ^ 2 = 4 - 2 * ‖overlap A B‖ := by
  obtain ⟨c, hc, hphase⟩ := exists_phase_mul_eq_norm (overlap A B)
  refine ⟨c, hc, ?_⟩
  rw [norm_sub_smul_sq hA hB hc, hphase, ofReal_re]

theorem le_norm_sub_smul_sq (hA : A ∈ unitary Mat) (hB : B ∈ unitary Mat) (hc : ‖c‖ = 1) :
    4 - 2 * ‖overlap A B‖ ≤ ‖B - c • A‖ ^ 2 := by
  rw [norm_sub_smul_sq hA hB hc]
  linarith [re_phase_mul_le_norm hc (overlap A B)]

/-- Cauchy and Schwarz: the overlap of unitary matrices is at most 2. -/
theorem norm_overlap_le (hA : A ∈ unitary Mat) (hB : B ∈ unitary Mat) : ‖overlap A B‖ ≤ 2 := by
  obtain ⟨c, -, hdistance⟩ := exists_norm_sub_smul_sq hA hB
  linarith [sq_nonneg ‖B - c • A‖]

/-- It is 2 for matrices that are equal up to a phase only. -/
theorem norm_overlap_eq_two_iff (hA : A ∈ unitary Mat) (hB : B ∈ unitary Mat) :
    ‖overlap A B‖ = 2 ↔ ∃ c : ℂ, ‖c‖ = 1 ∧ B = c • A := by
  constructor
  · intro htwo
    obtain ⟨c, hc, hdistance⟩ := exists_norm_sub_smul_sq hA hB
    rw [htwo] at hdistance
    norm_num at hdistance
    exact ⟨c, hc, sub_eq_zero.1 hdistance⟩
  · rintro ⟨c, hc, rfl⟩
    rw [overlap_smul_right, overlap_self hA, norm_mul, hc]
    norm_num

end Distance

/-! ## The test -/

namespace Operator

theorem toComplex_trace_dagger_mul (u v : Operator ℝ) :
    (u.dagger * v).trace.toComplex = overlap u.toMatrix v.toMatrix := by
  rw [toComplex_trace, toMatrix_mul, toMatrix_dagger, overlap]

theorem equivUpToPhase_iff (u v : Operator ℝ) (bound : ℝ) :
    u.equivUpToPhase v bound = true ↔ |‖overlap u.toMatrix v.toMatrix‖ - 2| < bound := by
  have htwo : (2.0 : ℝ) = 2 := by norm_num
  rw [← toComplex_trace_dagger_mul, ← htwo, equivUpToPhase, decide_eq_true_iff]
  rfl

/-- The test looks at nothing but the length of the overlap. -/
theorem equivUpToPhase_congr {u v u' v' : Operator ℝ}
    (h : ‖overlap u.toMatrix v.toMatrix‖ = ‖overlap u'.toMatrix v'.toMatrix‖) (bound : ℝ) :
    u.equivUpToPhase v bound = u'.equivUpToPhase v' bound := by
  rw [Bool.eq_iff_iff, equivUpToPhase_iff, equivUpToPhase_iff, h]

/-- **What the test of equality up to a phase measures.** It accepts two unitary operators exactly if for some phase the
square of their Frobenius distance is below twice the bound. The overlap has length 2 exactly if they are equal up to a phase.
The test is symmetric and does not see phases in front of the operators. -/
theorem phase_test_measures_distance (u v : Operator ℝ) (hu : u.toMatrix ∈ unitary Mat) (hv : v.toMatrix ∈ unitary Mat) :
    (∀ bound : ℝ, u.equivUpToPhase v bound = true ↔
      ∃ c : ℂ, ‖c‖ = 1 ∧ ‖v.toMatrix - c • u.toMatrix‖ ^ 2 < 2 * bound) ∧
    ((u.dagger * v).trace.norm = 2 ↔ ∃ c : ℂ, ‖c‖ = 1 ∧ v.toMatrix = c • u.toMatrix) ∧
    (∀ bound : ℝ, u.equivUpToPhase v bound = v.equivUpToPhase u bound) ∧
    ∀ (c : Amplitude ℝ) (bound : ℝ), c.norm = 1 →
      (u.scale c).equivUpToPhase v bound = u.equivUpToPhase v bound ∧
        u.equivUpToPhase (v.scale c) bound = u.equivUpToPhase v bound := by
  refine ⟨fun bound => ?_, ?_, fun bound => equivUpToPhase_congr ?_ bound, fun c bound hc =>
    ⟨equivUpToPhase_congr ?_ bound, equivUpToPhase_congr ?_ bound⟩⟩
  · have hle := norm_overlap_le hu hv
    rw [equivUpToPhase_iff, abs_of_nonpos (by linarith)]
    constructor
    · intro hlt
      obtain ⟨c, hc, hdistance⟩ := exists_norm_sub_smul_sq hu hv
      exact ⟨c, hc, by linarith⟩
    · rintro ⟨c, hc, hlt⟩
      linarith [le_norm_sub_smul_sq hu hv hc]
  · rw [Amplitude.norm_eq, toComplex_trace_dagger_mul]
    exact norm_overlap_eq_two_iff hu hv
  · rw [overlap_comm, norm_star]
  · rw [Amplitude.norm_eq] at hc
    rw [toMatrix_scale, overlap_smul_left, norm_mul, norm_star, hc, one_mul]
  · rw [Amplitude.norm_eq] at hc
    rw [toMatrix_scale, overlap_smul_right, norm_mul, hc, one_mul]

/-- A quarter turn around X. -/
noncomputable def quarterX : Operator ℝ := .rx (Scalar.toRadians 90.0)

theorem phase_test_measures_distance_quarterX :
    quarterX.toMatrix ∈ unitary Mat ∧ (identity : Operator ℝ).toMatrix ∈ unitary Mat ∧
      quarterX.equivUpToPhase identity 1 = true ∧ quarterX.equivUpToPhase (quarterX.scale ⟨0, 1⟩) 1e-10 = true := by
  have hrot : quarterX.toMatrix = rot .x 90.0 := Gate.matrix_rotation .x ⟨0⟩ 90.0
  have hquarter : quarterX.toMatrix ∈ unitary Mat := hrot ▸ rot_mem_unitary .x 90.0
  have hidentity : (identity : Operator ℝ).toMatrix ∈ unitary Mat := by
    rw [toMatrix_identity]
    exact one_mem _
  obtain ⟨hnear, -, -, -⟩ := phase_test_measures_distance quarterX identity hquarter hidentity
  obtain ⟨hself, -, -, hscale⟩ := phase_test_measures_distance quarterX quarterX hquarter hquarter
  refine ⟨hquarter, hidentity, (hnear 1).2 ⟨1, norm_one, ?_⟩, ?_⟩
  · have hhalf : half 90.0 = Real.pi / 4 := by
      rw [show (90.0 : ℝ) = 90 by norm_num, half]
      ring
    have hoverlap : overlap quarterX.toMatrix 1 = (√2 : ℝ) := by
      rw [hrot, rot_x_eq, hhalf, Real.cos_pi_div_four, overlap, mul_one, Matrix.trace_fin_two]
      simp [Matrix.star_apply, -ofReal_div]
      norm_num
    have hroot : 1 < √2 := Real.one_lt_sqrt_two
    rw [toMatrix_identity, norm_sub_smul_sq hquarter (one_mem _) norm_one, hoverlap]
    simp only [star_one, one_mul, ofReal_re]
    linarith
  · have hunit : (⟨0, 1⟩ : Amplitude ℝ).norm = 1 := norm_I
    rw [(hscale ⟨0, 1⟩ 1e-10 hunit).2, hself]
    exact ⟨1, norm_one, by norm_num⟩

end Operator

end RotationCircuits
