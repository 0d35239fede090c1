import RotationCircuits.Proofs.Exact.Rotation
import RotationCircuits.Euler

/-!
# Angles of an operator

The Euler angles that are read off a unitary operator give back the operator without its phase (`ofOperator_cases`): exactly
if the lower left entry is not taken as zero, and else up to the length of that entry. The last entry is not read where the
others determine it, so this rests on the operator being unitary (`last_entry_eq`). A phase in front of the operator does not
change the angles, as long as there is an upper left entry to tell it by (`Operator.stripPhase_scale`).
-/

namespace RotationCircuits

open Complex Matrix

/-! ## The global phase -/

/-- The phase of a product with a number of length one is that of the other factor, times that number. -/
theorem exp_arg_mul {z c : ℂ} (hz : z ≠ 0) (hc : ‖c‖ = 1) : exp (arg (z * c) * I) = exp (arg z * I) * c := by
  have hne : (‖z‖ : ℂ) ≠ 0 := by simpa using hz
  apply mul_left_cancel₀ hne
  calc (‖z‖ : ℂ) * exp (arg (z * c) * I)
    _ = ‖z * c‖ * exp (arg (z * c) * I) := by rw [norm_mul, hc, mul_one]
    _ = ‖z‖ * exp (arg z * I) * c := by rw [norm_mul_exp_arg_mul_I, norm_mul_exp_arg_mul_I]
    _ = ‖z‖ * (exp (arg z * I) * c) := mul_assoc _ _ _

namespace Amplitude

theorem toComplex_injective : Function.Injective toComplex := by
  rintro ⟨a, b⟩ ⟨c, d⟩ h
  cases h
  rfl

theorem mul_assoc_real (x y z : Amplitude ℝ) : x * y * z = x * (y * z) := by
  apply toComplex_injective
  simp only [toComplex_mul, mul_assoc]

/-- The factor that takes off the phase of a number. -/
theorem toComplex_unphase (z : Amplitude ℝ) :
    (polar 1.0 (-z.arg)).toComplex = (exp (Complex.arg z.toComplex * I))⁻¹ := by
  rw [toComplex_polar_one, ofReal_neg, neg_mul, exp_neg, arg_eq]

/-- Taking off the phase of a product with a number of length one takes off that number. -/
theorem mul_unphase {z c : Amplitude ℝ} (hz : z.toComplex ≠ 0) (hc : c.norm = 1) :
    c * polar 1.0 (-(z * c).arg) = polar 1.0 (-z.arg) := by
  rw [norm_eq] at hc
  have hc0 : c.toComplex ≠ 0 := by
    intro h
    rw [h, norm_zero] at hc
    exact zero_ne_one hc
  apply toComplex_injective
  rw [toComplex_mul, toComplex_unphase, toComplex_unphase, toComplex_mul, exp_arg_mul hz hc, mul_inv, mul_comm,
    mul_assoc, inv_mul_cancel₀ hc0, mul_one]

end Amplitude

namespace Operator

theorem toMatrix_injective : Function.Injective toMatrix := by
  intro u v h
  have hentry (i j : Fin 2) : u.toMatrix i j = v.toMatrix i j := by rw [h]
  have h00 : u.u00 = v.u00 := Amplitude.toComplex_injective (hentry 0 0)
  have h01 : u.u01 = v.u01 := Amplitude.toComplex_injective (hentry 0 1)
  have h10 : u.u10 = v.u10 := Amplitude.toComplex_injective (hentry 1 0)
  have h11 : u.u11 = v.u11 := Amplitude.toComplex_injective (hentry 1 1)
  cases u
  cases v
  simp_all

theorem toMatrix_stripPhase (u : Operator ℝ) :
    ∃ c : ℂ, ‖c‖ = 1 ∧ u.stripPhase.toMatrix = c • u.toMatrix := by
  refine ⟨_, ?_, toMatrix_scale u _⟩
  rw [Amplitude.toComplex_unphase, norm_inv, norm_exp_ofReal_mul_I, inv_one]

/-- Without its phase the upper left entry is its own length. -/
theorem u00_stripPhase (u : Operator ℝ) : u.stripPhase.u00.toComplex = ‖u.u00.toComplex‖ := by
  show (u.u00 * Amplitude.polar 1.0 (-u.u00.arg)).toComplex = _
  rw [Amplitude.toComplex_mul, Amplitude.toComplex_unphase]
  nth_rewrite 1 [← norm_mul_exp_arg_mul_I u.u00.toComplex]
  exact mul_inv_cancel_right₀ (exp_ne_zero _) _

/-- Taking off the phase does not change the length of an entry. -/
theorem norm_u10_stripPhase (u : Operator ℝ) : ‖u.stripPhase.u10.toComplex‖ = ‖u.u10.toComplex‖ := by
  show ‖(u.u10 * Amplitude.polar 1.0 (-u.u00.arg)).toComplex‖ = _
  rw [Amplitude.toComplex_mul, Amplitude.toComplex_unphase, norm_mul, norm_inv, norm_exp_ofReal_mul_I, inv_one, mul_one]

/-- The entries without the phase, the first of them a length. -/
theorem toMatrix_stripPhase_eq (u : Operator ℝ) :
    u.stripPhase.toMatrix =
      !![(‖u.u00.toComplex‖ : ℂ), u.stripPhase.u01.toComplex;
        u.stripPhase.u10.toComplex, u.stripPhase.u11.toComplex] := by
  rw [← u.u00_stripPhase]
  rfl

theorem stripPhase_mem_unitary {u : Operator ℝ} (hu : u.toMatrix ∈ unitary Mat) :
    u.stripPhase.toMatrix ∈ unitary Mat := by
  obtain ⟨c, hc, hstrip⟩ := u.toMatrix_stripPhase
  rw [hstrip]
  exact smul_mem_unitary hc hu

/-- A factor of length one in front of an operator is taken off with its phase. -/
theorem stripPhase_scale {u : Operator ℝ} (hu : u.u00.toComplex ≠ 0) {c : Amplitude ℝ} (hc : c.norm = 1) :
    (u.scale c).stripPhase = u.stripPhase := by
  have hphase : c * .polar 1.0 (-(u.u00 * c).arg) = .polar 1.0 (-u.u00.arg) := Amplitude.mul_unphase hu hc
  have hentry (z : Amplitude ℝ) : z * c * .polar 1.0 (-(u.u00 * c).arg) = z * .polar 1.0 (-u.u00.arg) := by
    rw [Amplitude.mul_assoc_real, hphase]
  simp only [stripPhase, scale, hentry]

end Operator

theorem Sequence.stripPhase_eq_ok (u : Operator ℝ) : Sequence.stripPhase u = .ok u.stripPhase := by
  have him : u.stripPhase.u00.im = 0 := by
    have h := congrArg Complex.im (Operator.u00_stripPhase u)
    rwa [ofReal_im] at h
  have hle : ¬ (Sequence.phaseTolerance : ℝ) < Scalar.abs u.stripPhase.u00.im := by
    rw [him]
    show ¬ (1e-5 : ℝ) < |0|
    norm_num
  have hnan : Scalar.isNaN u.stripPhase.u00.im = false := rfl
  simp [Sequence.stripPhase, hnan, hle]

/-! ## Unitary matrices -/

section Unitary

variable {a b c d : ℂ}

theorem normSq_column (h : !![a, b; c, d] ∈ unitary Mat) : ‖a‖ ^ 2 + ‖c‖ ^ 2 = 1 := by
  have h00 := congrFun (congrFun (Unitary.mem_iff.1 h).1 0) 0
  simp [Matrix.mul_apply, Matrix.star_apply, Fin.sum_univ_two, conj_mul'] at h00
  exact_mod_cast h00

theorem normSq_row (h : !![a, b; c, d] ∈ unitary Mat) : ‖a‖ ^ 2 + ‖b‖ ^ 2 = 1 := by
  have h00 := congrFun (congrFun (Unitary.mem_iff.1 h).2 0) 0
  simp [Matrix.mul_apply, Matrix.star_apply, Fin.sum_univ_two, mul_conj'] at h00
  exact_mod_cast h00

theorem normSq_column' (h : !![a, b; c, d] ∈ unitary Mat) : ‖b‖ ^ 2 + ‖d‖ ^ 2 = 1 := by
  have h11 := congrFun (congrFun (Unitary.mem_iff.1 h).1 1) 1
  simp [Matrix.mul_apply, Matrix.star_apply, Fin.sum_univ_two, conj_mul'] at h11
  exact_mod_cast h11

theorem columns_orthogonal (h : !![a, b; c, d] ∈ unitary Mat) : star a * b + star c * d = 0 := by
  have h01 := congrFun (congrFun (Unitary.mem_iff.1 h).1 0) 1
  simpa [Matrix.mul_apply, Matrix.star_apply, Fin.sum_univ_two] using h01

/-- The off-diagonal entries of a unitary matrix are equally long. -/
theorem norm_anti_diagonal (h : !![a, b; c, d] ∈ unitary Mat) : ‖b‖ = ‖c‖ := by
  have hcol := normSq_column h
  have hrow := normSq_row h
  exact (pow_left_inj₀ (norm_nonneg b) (norm_nonneg c) two_ne_zero).1 (by linarith)

/-- So are the entries on the diagonal. -/
theorem norm_diagonal (h : !![a, b; c, d] ∈ unitary Mat) : ‖d‖ = ‖a‖ := by
  have hcol := normSq_column' h
  have hrow := normSq_row h
  exact (pow_left_inj₀ (norm_nonneg d) (norm_nonneg a) two_ne_zero).1 (by linarith)

/-- The last entry is determined by the others, if those off the diagonal do not vanish. -/
theorem last_entry_eq {r : ℝ} (h : !![(r : ℂ), b; c, d] ∈ unitary Mat) (hc : c ≠ 0) :
    d = r * exp ((arg c + arg (-b)) * I) := by
  have horth := columns_orthogonal h
  have hb : -b = ‖c‖ * exp (arg (-b) * I) := by
    rw [← norm_anti_diagonal h, ← norm_neg b, norm_mul_exp_arg_mul_I]
  have hcc : star c * c = ‖c‖ ^ 2 := conj_mul' c
  have hstar : star (r : ℂ) = r := conj_ofReal r
  have hne : (‖c‖ : ℂ) ^ 2 ≠ 0 := by simpa using hc
  rw [hstar] at horth
  -- Multiply the orthogonality of the columns by `c` and write `c` and `-b` in polar form.
  apply mul_left_cancel₀ hne
  calc (‖c‖ : ℂ) ^ 2 * d = c * (star c * d) := by
        rw [← hcc]
        ring
    _ = r * (c * -b) := by linear_combination c * horth
    _ = r * ((‖c‖ * exp (arg c * I)) * (‖c‖ * exp (arg (-b) * I))) := by rw [norm_mul_exp_arg_mul_I, ← hb]
    _ = ‖c‖ ^ 2 * (r * exp ((arg c + arg (-b)) * I)) := by
        rw [add_mul, exp_add]
        ring

end Unitary

/-! ## Euler angles of an operator -/

namespace Euler

/-- The angle whose cosine and sine are two given lengths. -/
theorem cos_sin_atan2 {x y : ℝ} (h : x ^ 2 + y ^ 2 = 1) :
    Real.cos (Scalar.atan2 y x) = x ∧ Real.sin (Scalar.atan2 y x) = y := by
  have hnorm : ‖(⟨x, y⟩ : ℂ)‖ = 1 := by
    rw [← pow_left_inj₀ (norm_nonneg _) zero_le_one two_ne_zero, ← normSq_eq_norm_sq, normSq_mk]
    linarith
  have hne : (⟨x, y⟩ : ℂ) ≠ 0 := by
    intro hzero
    rw [hzero, norm_zero] at hnorm
    norm_num at hnorm
  constructor
  · show Real.cos (Complex.arg ⟨x, y⟩) = x
    rw [cos_arg hne, hnorm, div_one]
  · show Real.sin (Complex.arg ⟨x, y⟩) = y
    rw [sin_arg, hnorm, div_one]

variable {r : ℝ} {b c d : ℂ}

/-- Angles read off the entries of a unitary matrix give back the matrix. -/
theorem toMatrix_of_entries (hr : 0 ≤ r) (h : !![(r : ℂ), b; c, d] ∈ unitary Mat) (hc : c ≠ 0) :
    (Operator.general (2 * Scalar.atan2 ‖c‖ r) (arg c) (arg (-b))).toMatrix = !![(r : ℂ), b; c, d] := by
  have hcol := normSq_column h
  rw [norm_real, Real.norm_of_nonneg hr] at hcol
  obtain ⟨hcos, hsin⟩ := cos_sin_atan2 hcol
  have hhalf : 2 * Scalar.atan2 ‖c‖ r / 2 = Scalar.atan2 ‖c‖ r := by ring
  have hb : (‖c‖ : ℂ) * exp (arg (-b) * I) = -b := by
    rw [← norm_anti_diagonal h, ← norm_neg b, norm_mul_exp_arg_mul_I]
  rw [Operator.toMatrix_general, hhalf, hcos, hsin, hb, neg_neg, norm_mul_exp_arg_mul_I, ← last_entry_eq h hc]

/-- A unitary matrix differs from the diagonal one with its last phase by no more than its lower left entry. -/
theorem norm_sub_diagonal_le (hr : 0 ≤ r) (h : !![(r : ℂ), b; c, d] ∈ unitary Mat) (i j : Fin 2) :
    ‖(!![1, 0; 0, exp (arg d * I)] : Mat) i j - !![(r : ℂ), b; c, d] i j‖ ≤ ‖c‖ := by
  have hcol := normSq_column h
  rw [norm_real, Real.norm_of_nonneg hr] at hcol
  have hb := norm_anti_diagonal h
  have hd := norm_diagonal h
  rw [norm_real, Real.norm_of_nonneg hr] at hd
  have hc0 := norm_nonneg c
  have hr1 : r ≤ 1 := by nlinarith
  -- The first entry falls short of one by the square of a length that is at most one.
  have hshort : 1 - r ≤ ‖c‖ := by nlinarith
  have hlast : exp (arg d * I) - d = ((1 - r : ℝ) : ℂ) * exp (arg d * I) := by
    nth_rewrite 2 [← norm_mul_exp_arg_mul_I d]
    rw [hd]
    push_cast
    ring
  fin_cases i <;> fin_cases j
  · show ‖(1 : ℂ) - r‖ ≤ ‖c‖
    rw [← ofReal_one, ← ofReal_sub, norm_real, Real.norm_of_nonneg (by linarith)]
    exact hshort
  · show ‖(0 : ℂ) - b‖ ≤ ‖c‖
    rw [zero_sub, norm_neg, hb]
  · show ‖(0 : ℂ) - c‖ ≤ ‖c‖
    rw [zero_sub, norm_neg]
  · show ‖exp (arg d * I) - d‖ ≤ ‖c‖
    rw [hlast, norm_mul, norm_exp_ofReal_mul_I, mul_one, norm_real, Real.norm_of_nonneg (by linarith)]
    exact hshort

/-- The polar angle of two lengths is at most half a turn. -/
theorem toDegrees_atan2_bounds {x y : ℝ} (hx : 0 ≤ x) (hy : 0 ≤ y) :
    0 ≤ Scalar.toDegrees (2.0 * Scalar.atan2 y x) ∧ Scalar.toDegrees (2.0 * Scalar.atan2 y x) ≤ 180 := by
  have hlow : 0 ≤ Complex.arg ⟨x, y⟩ := arg_nonneg_iff.2 hy
  have hhigh : Complex.arg ⟨x, y⟩ ≤ Real.pi / 2 := (abs_le.1 (abs_arg_le_pi_div_two_iff.2 hx)).2
  have hpi := Real.pi_pos
  show 0 ≤ (2.0 : ℝ) * Complex.arg ⟨x, y⟩ * (180.0 / Real.pi) ∧ (2.0 : ℝ) * Complex.arg ⟨x, y⟩ * (180.0 / Real.pi) ≤ 180
  norm_num
  refine ⟨by positivity, ?_⟩
  rw [← mul_div_assoc, div_le_iff₀ hpi]
  linarith

theorem ofOperator_of_small {u : Operator ℝ} (h : u.stripPhase.u10.norm < 1e-9) :
    ofOperator u = .ok ⟨0.0, Scalar.toDegrees u.stripPhase.u11.arg, 0.0⟩ := by
  have hlt : u.stripPhase.u10.norm < degenerateTolerance := h
  unfold ofOperator
  rw [Sequence.stripPhase_eq_ok]
  show (if u.stripPhase.u10.norm < degenerateTolerance then _ else _) = _
  rw [if_pos hlt]
  rfl

theorem ofOperator_of_large {u : Operator ℝ} (h : ¬ u.stripPhase.u10.norm < 1e-9) :
    ofOperator u = .ok ⟨Scalar.toDegrees (2.0 * Scalar.atan2 u.stripPhase.u10.norm u.stripPhase.u00.norm),
      Scalar.toDegrees u.stripPhase.u10.arg, Scalar.toDegrees (-u.stripPhase.u01).arg⟩ := by
  have hlt : ¬ u.stripPhase.u10.norm < degenerateTolerance := h
  unfold ofOperator
  rw [Sequence.stripPhase_eq_ok]
  show (if u.stripPhase.u10.norm < degenerateTolerance then _ else _) = _
  rw [if_neg hlt]
  rfl

theorem toMatrix_diagonal (t : ℝ) :
    (⟨0.0, Scalar.toDegrees t, 0.0⟩ : Euler ℝ).operator.toMatrix = !![1, 0; 0, exp (t * I)] := by
  have h0 : Scalar.toRadians (0.0 : ℝ) = 0 := by
    rw [toRadians_eq]
    norm_num
  rw [operator, toRadians_toDegrees, h0, Operator.toMatrix_general]
  simp

/-- **Angles of an operator.** Every unitary operator has Euler angles, with a polar angle of at most half a turn. They give
back the operator without its phase, up to the length of a lower left entry that is taken as zero. -/
theorem ofOperator_cases {u : Operator ℝ} (hu : u.toMatrix ∈ unitary Mat) :
    ∃ e, ofOperator u = .ok e ∧ (0 ≤ e.theta ∧ e.theta ≤ 180) ∧
      (‖u.u10.toComplex‖ < 1e-9 ∧
          (∀ i j, ‖e.operator.toMatrix i j - u.stripPhase.toMatrix i j‖ ≤ ‖u.u10.toComplex‖) ∨
        1e-9 ≤ ‖u.u10.toComplex‖ ∧ e.operator.toMatrix = u.stripPhase.toMatrix) := by
  have hr := norm_nonneg u.u00.toComplex
  have hentries := u.toMatrix_stripPhase_eq
  have hv := Operator.stripPhase_mem_unitary hu
  rw [hentries] at hv
  have hlength : u.stripPhase.u10.norm = ‖u.u10.toComplex‖ := u.norm_u10_stripPhase
  by_cases hsmall : ‖u.u10.toComplex‖ < 1e-9
  · refine ⟨_, ofOperator_of_small (hlength ▸ hsmall), ?_, .inl ⟨hsmall, fun i j => ?_⟩⟩
    · show 0 ≤ (0.0 : ℝ) ∧ (0.0 : ℝ) ≤ 180
      norm_num
    · rw [toMatrix_diagonal, hentries, ← hlength]
      exact norm_sub_diagonal_le hr hv i j
  · refine ⟨_, ofOperator_of_large (hlength ▸ hsmall), ?_, .inr ⟨not_lt.1 hsmall, ?_⟩⟩
    · exact toDegrees_atan2_bounds (norm_nonneg _) (norm_nonneg _)
    · have hc : u.stripPhase.u10.toComplex ≠ 0 := by
        intro hzero
        apply hsmall
        rw [← hlength, Amplitude.norm_eq, hzero, norm_zero]
        norm_num
      have hnorm : u.stripPhase.u00.norm = ‖u.u00.toComplex‖ := by
        rw [Amplitude.norm_eq, u.u00_stripPhase, norm_real, norm_norm]
      have hmatrix := toMatrix_of_entries hr hv hc
      have h2 : (2.0 : ℝ) = 2 := by norm_num
      rw [operator, toRadians_toDegrees, toRadians_toDegrees, toRadians_toDegrees, hnorm, h2, hentries]
      exact hmatrix

theorem ofOperator_eq_ok {u : Operator ℝ} (hu : u.toMatrix ∈ unitary Mat) :
    ∃ e, ofOperator u = .ok e ∧ ∀ i j, ‖e.operator.toMatrix i j - u.stripPhase.toMatrix i j‖ < 1e-9 := by
  obtain ⟨e, he, -, ⟨hsmall, hnear⟩ | ⟨-, hexact⟩⟩ := ofOperator_cases hu
  · exact ⟨e, he, fun i j => (hnear i j).trans_lt hsmall⟩
  · refine ⟨e, he, fun i j => ?_⟩
    rw [hexact, sub_self, norm_zero]
    norm_num

/-- The angles depend on the operator without its phase only. -/
theorem ofOperator_congr {u v : Operator ℝ} (h : u.stripPhase = v.stripPhase) : ofOperator u = ofOperator v := by
  unfold ofOperator
  rw [Sequence.stripPhase_eq_ok, Sequence.stripPhase_eq_ok, h]

/-- **Reading off angles inverts the general operator.** A unitary operator has angles, with a polar angle between zero and
half a turn, and their operator is the given one without its phase, within `1e-9` in each entry. It is that operator itself
unless the lower left entry is so short that it is taken as zero without being zero. With an upper left entry the angles do
not depend on the phase. -/
theorem extracted_angles_invert_operator (u : Operator ℝ) (hu : u.toMatrix ∈ unitary Mat) :
    (∃ e, ofOperator u = .ok e ∧ 0 ≤ e.theta ∧ e.theta ≤ 180 ∧
      (∀ i j, ‖e.operator.toMatrix i j - u.stripPhase.toMatrix i j‖ < 1e-9) ∧
      (u.u10.toComplex = 0 ∨ 1e-9 ≤ ‖u.u10.toComplex‖ → e.operator = u.stripPhase)) ∧
    (u.u00.toComplex ≠ 0 → ∀ c : Amplitude ℝ, c.norm = 1 → ofOperator (u.scale c) = ofOperator u) := by
  refine ⟨?_, fun hcorner c hc => ofOperator_congr (Operator.stripPhase_scale hcorner hc)⟩
  obtain ⟨e, he, hnear⟩ := ofOperator_eq_ok hu
  obtain ⟨e', he', ⟨hlow, hhigh⟩, hcases⟩ := ofOperator_cases hu
  obtain rfl : e = e' := by
    rw [he] at he'
    exact Except.ok.inj he'
  refine ⟨e, he, hlow, hhigh, hnear, fun hentry => Operator.toMatrix_injective ?_⟩
  rcases hcases with ⟨hsmall, hle⟩ | ⟨-, hexact⟩
  · -- An entry below the bound that is not above it is zero, and so is the error.
    have hzero : u.u10.toComplex = 0 := hentry.resolve_right hsmall.not_ge
    ext i j
    have hdiff := hle i j
    rw [hzero, norm_zero] at hdiff
    exact sub_eq_zero.1 (norm_le_zero_iff.1 hdiff)
  · exact hexact

/-- Half a turn around Y: there is no upper left entry. -/
noncomputable def halfTurn : Operator ℝ := .ry (Scalar.toRadians 180.0)

/-- A quarter turn around Z: there is no lower left entry. -/
noncomputable def quarterTurn : Operator ℝ := .rz (Scalar.toRadians 90.0)

theorem extracted_angles_invert_operator_turns :
    halfTurn.toMatrix ∈ unitary Mat ∧ halfTurn.u00.toComplex = 0 ∧ 1e-9 ≤ ‖halfTurn.u10.toComplex‖ ∧
      (∃ e, ofOperator halfTurn = .ok e ∧ e.operator = halfTurn.stripPhase) ∧
      quarterTurn.toMatrix ∈ unitary Mat ∧ quarterTurn.u10.toComplex = 0 ∧
      (∃ e, ofOperator quarterTurn = .ok e ∧ e.operator = quarterTurn.stripPhase) ∧
      quarterTurn.u00.toComplex ≠ 0 ∧ ofOperator (quarterTurn.scale ⟨0, 1⟩) = ofOperator quarterTurn := by
  have hhalf : halfTurn.toMatrix ∈ unitary Mat := (Gate.rotation .y ⟨0⟩ (180.0 : ℝ)).matrix_mem_unitary
  have hquarter : quarterTurn.toMatrix ∈ unitary Mat := (Gate.rotation .z ⟨0⟩ (90.0 : ℝ)).matrix_mem_unitary
  have hright : half 180.0 = Real.pi / 2 := by
    rw [show (180.0 : ℝ) = 180 by norm_num, half]
    ring
  have hcorner : halfTurn.u00.toComplex = 0 := by
    simp [halfTurn, Operator.ry, toRadians_div_two, hright, scalar_cos]
  have hlength : 1e-9 ≤ ‖halfTurn.u10.toComplex‖ := by
    simp [halfTurn, Operator.ry, toRadians_div_two, hright, scalar_sin]
    norm_num
  have hentry : quarterTurn.u10.toComplex = 0 := Amplitude.toComplex_zero
  have hphase : quarterTurn.u00.toComplex ≠ 0 := by
    simp [quarterTurn, Operator.rz]
    norm_num
  have hunit : (⟨0, 1⟩ : Amplitude ℝ).norm = 1 := norm_I
  obtain ⟨⟨e, he, -, -, -, hexact⟩, -⟩ := extracted_angles_invert_operator halfTurn hhalf
  obtain ⟨⟨e', he', -, -, -, hexact'⟩, hscale⟩ := extracted_angles_invert_operator quarterTurn hquarter
  exact ⟨hhalf, hcorner, hlength, ⟨e, he, hexact (.inr hlength)⟩, hquarter, hentry, ⟨e', he', hexact' (.inl hentry)⟩,
    hphase, hscale hphase ⟨0, 1⟩ hunit⟩

end Euler

end RotationCircuits
