import Mathlib.LinearAlgebra.UnitaryGroup
import Mathlib.Analysis.SpecialFunctions.Trigonometric.Basic
import Mathlib.LinearAlgebra.Matrix.Notation
import Mathlib.Tactic.Module
import RotationCircuits.Gate
import RotationCircuits.Proofs.Exact.Reals

/-!
# Rotations as matrices

Over the real numbers an operator is a complex matrix. A rotation by `t` degrees around an axis is
`cos (t/2) - i sin (t/2) σ` with the Pauli matrix `σ` of the axis; all that is needed of the three axes is that each Pauli
matrix has square one and that two of them anticommute.
-/

namespace RotationCircuits

open Complex Matrix

/-- Two by two complex matrices. -/
abbrev Mat := Matrix (Fin 2) (Fin 2) ℂ

/-! ## Operators -/

/-- The complex number of an amplitude. -/
def Amplitude.toComplex (z : Amplitude ℝ) : ℂ := ⟨z.re, z.im⟩

namespace Amplitude

@[simp] theorem toComplex_mul (z w : Amplitude ℝ) : (z * w).toComplex = z.toComplex * w.toComplex := rfl

@[simp] theorem toComplex_add (z w : Amplitude ℝ) : (z + w).toComplex = z.toComplex + w.toComplex := rfl

@[simp] theorem toComplex_neg (z : Amplitude ℝ) : (-z).toComplex = -z.toComplex := rfl

@[simp] theorem toComplex_conj (z : Amplitude ℝ) : z.conj.toComplex = star z.toComplex := rfl

@[simp] theorem toComplex_mk_zero (x : ℝ) : (⟨x, 0.0⟩ : Amplitude ℝ).toComplex = x := by
  apply Complex.ext
  · rfl
  · show (0.0 : ℝ) = 0
    norm_num

@[simp] theorem toComplex_zero_mk (y : ℝ) : (⟨0.0, y⟩ : Amplitude ℝ).toComplex = y * I := by
  apply Complex.ext
  · show (0.0 : ℝ) = _
    norm_num
  · simp [toComplex]

@[simp] theorem toComplex_zero : (zero : Amplitude ℝ).toComplex = 0 := by
  rw [zero, toComplex_mk_zero]
  norm_num

@[simp] theorem toComplex_one : (one : Amplitude ℝ).toComplex = 1 := by
  rw [one, toComplex_mk_zero]
  norm_num

@[simp] theorem toComplex_polar (r t : ℝ) : (polar r t).toComplex = r * exp (t * I) := by
  rw [exp_mul_I, ← ofReal_cos, ← ofReal_sin]
  apply Complex.ext
  · show r * Real.cos t = _
    simp [-ofReal_cos, -ofReal_sin]
  · show r * Real.sin t = _
    simp [-ofReal_cos, -ofReal_sin]

@[simp] theorem toComplex_polar_one (t : ℝ) : (polar 1.0 t).toComplex = exp (t * I) := by
  rw [toComplex_polar]
  norm_num

theorem norm_eq (z : Amplitude ℝ) : z.norm = ‖z.toComplex‖ := rfl

theorem arg_eq (z : Amplitude ℝ) : z.arg = Complex.arg z.toComplex := rfl

end Amplitude

/-- The matrix of an operator. -/
def Operator.toMatrix (u : Operator ℝ) : Mat :=
  !![u.u00.toComplex, u.u01.toComplex; u.u10.toComplex, u.u11.toComplex]

namespace Operator

@[simp] theorem toMatrix_mul (u v : Operator ℝ) : (u * v).toMatrix = u.toMatrix * v.toMatrix := by
  simp [toMatrix]

@[simp] theorem toMatrix_identity : (identity : Operator ℝ).toMatrix = 1 := by
  simp [toMatrix, identity, Matrix.one_fin_two]

theorem toMatrix_scale (u : Operator ℝ) (z : Amplitude ℝ) : (u.scale z).toMatrix = z.toComplex • u.toMatrix := by
  simp [toMatrix, scale, Matrix.smul_of, mul_comm]

@[simp] theorem toMatrix_dagger (u : Operator ℝ) : u.dagger.toMatrix = star u.toMatrix := by
  ext i j
  fin_cases i <;> fin_cases j <;> simp [toMatrix, dagger, Matrix.star_apply]

theorem toComplex_trace (u : Operator ℝ) : u.trace.toComplex = u.toMatrix.trace := by
  simp [trace, toMatrix, Matrix.trace_fin_two]

end Operator

/-! ## Rotations -/

/-- The Pauli matrix of an axis. -/
def pauli : Axis → Mat
  | .x => !![0, 1; 1, 0]
  | .y => !![0, -I; I, 0]
  | .z => !![1, 0; 0, -1]

theorem pauli_mul_self (a : Axis) : pauli a * pauli a = 1 := by
  cases a <;> simp [pauli, Matrix.one_fin_two]

theorem pauli_mul_comm {a b : Axis} (h : a ≠ b) : pauli a * pauli b = -(pauli b * pauli a) := by
  cases a <;> cases b <;> simp [pauli] at h ⊢

theorem star_pauli (a : Axis) : star (pauli a) = pauli a := by
  ext i j
  cases a <;> fin_cases i <;> fin_cases j <;> simp [pauli, Matrix.star_apply]

/-- Half of an angle in degrees, in radians. -/
noncomputable def half (t : ℝ) : ℝ := t * (Real.pi / 180) / 2

/-- The rotation by an angle in degrees. -/
noncomputable def rot (a : Axis) (t : ℝ) : Mat :=
  (Real.cos (half t) : ℂ) • (1 : Mat) - ((Real.sin (half t) : ℂ) * I) • pauli a

theorem half_add (s t : ℝ) : half (s + t) = half s + half t := by
  unfold half
  ring

theorem half_neg (t : ℝ) : half (-t) = -half t := by
  unfold half
  ring

theorem rot_mul_rot (a : Axis) (s t : ℝ) : rot a s * rot a t = rot a (s + t) := by
  simp only [rot, half_add, Real.cos_add, Real.sin_add, sub_mul, mul_sub, smul_mul_smul_comm, mul_one, one_mul,
    pauli_mul_self]
  push_cast
  match_scalars
  · linear_combination (-(Complex.sin (half s) * Complex.sin (half t))) * (-I_mul_I)
  · ring

@[simp] theorem rot_zero (a : Axis) : rot a 0 = 1 := by
  simp [rot, half]

theorem star_rot (a : Axis) (t : ℝ) : star (rot a t) = rot a (-t) := by
  simp [rot, half_neg, star_pauli, -ofReal_cos, -ofReal_sin]

theorem rot_mem_unitary (a : Axis) (t : ℝ) : rot a t ∈ unitary Mat := by
  rw [Unitary.mem_iff, star_rot, rot_mul_rot, rot_mul_rot]
  simp

/-- A phase keeps a matrix unitary. -/
theorem smul_mem_unitary {c : ℂ} (hc : ‖c‖ = 1) {A : Mat} (hA : A ∈ unitary Mat) : c • A ∈ unitary Mat := by
  refine Unitary.smul_mem_of_mem ?_ hA
  rw [Unitary.mem_iff_self_mul_star, star_def, mul_conj', hc]
  simp

theorem rot_half_turn (a : Axis) : rot a 180 = (-I) • pauli a := by
  have h : half 180 = Real.pi / 2 := by
    unfold half
    ring
  simp [rot, h]

/-- Another Pauli matrix turns a rotation around. -/
theorem pauli_mul_rot {a b : Axis} (h : a ≠ b) (t : ℝ) : pauli a * rot b t = rot b (-t) * pauli a := by
  simp only [rot, half_neg, Real.cos_neg, Real.sin_neg, mul_sub, sub_mul, mul_smul_comm, smul_mul_assoc, mul_one,
    one_mul, pauli_mul_comm h]
  push_cast
  module

/-- Whole turns change the sign at most. -/
theorem exists_rot_sub_turns (a : Axis) (t : ℝ) (k : ℤ) : ∃ c : ℂ, ‖c‖ = 1 ∧ rot a (t - 360 * k) = c • rot a t := by
  have hhalf : half (t - 360 * k) = half t - k * Real.pi := by
    unfold half
    ring
  refine ⟨(-1) ^ k, by simp, ?_⟩
  simp only [rot, hhalf, Real.cos_sub_int_mul_pi, Real.sin_sub_int_mul_pi]
  push_cast
  module

/-- A half turn on both sides turns a rotation around another axis around. -/
theorem half_turn_conj {a b : Axis} (h : a ≠ b) (t : ℝ) : rot a 180 * rot b t * rot a 180 = (-1 : ℂ) • rot b (-t) := by
  rw [rot_half_turn, smul_mul_assoc, pauli_mul_rot h, smul_mul_assoc, mul_smul_comm, mul_assoc, pauli_mul_self, mul_one,
    smul_smul]
  simp

/-- A quarter turn on both sides leaves a half turn around another axis. -/
theorem quarter_turn_conj {a b : Axis} (h : a ≠ b) : rot a 90 * rot b 180 * rot a 90 = rot b 180 := by
  rw [rot_half_turn, mul_smul_comm, smul_mul_assoc, mul_assoc, pauli_mul_rot h.symm, ← mul_assoc, rot_mul_rot]
  simp

/-- A quarter turn around Z takes X to Y. -/
theorem rot_z_conj (t : ℝ) : rot .z 90 * rot .x t * rot .z (-90) = rot .y t := by
  have hflip : rot .z 90 * pauli .x = pauli .x * rot .z (-90) := by
    rw [pauli_mul_rot (by decide)]
    simp
  have hxz : pauli .x * rot .z (-180) = pauli .y := by
    have hz : rot .z (-180) = star (rot .z 180) := (star_rot _ _).symm
    rw [hz, rot_half_turn, star_smul, star_pauli]
    simp [pauli]
  have hxy : rot .z 90 * pauli .x * rot .z (-90) = pauli .y := by
    rw [hflip, mul_assoc, rot_mul_rot]
    norm_num [hxz]
  have hid : rot .z 90 * rot .z (-90) = 1 := by
    rw [rot_mul_rot]
    simp
  conv_lhs => rw [rot.eq_def .x]
  rw [mul_sub, sub_mul, mul_smul_comm, mul_smul_comm, smul_mul_assoc, smul_mul_assoc, mul_one, hid, hxy, rot]

/-! ## Gates -/

/-- The matrix of a one-qubit gate. -/
noncomputable def Gate.matrix (g : Gate ℝ) : Mat := (g.operator?.map Operator.toMatrix).getD 1

theorem toRadians_div_two (t : ℝ) : Scalar.toRadians t / 2.0 = half t := by
  show Scalar.toRadians t / (2.0 : ℝ) = half t
  rw [toRadians_eq, half]
  norm_num

theorem rot_x_eq (t : ℝ) :
    rot .x t = !![(Real.cos (half t) : ℂ), -(Real.sin (half t) * I); -(Real.sin (half t) * I), Real.cos (half t)] := by
  simp [rot, pauli, Matrix.one_fin_two, -ofReal_cos, -ofReal_sin]

theorem rot_y_eq (t : ℝ) :
    rot .y t = !![(Real.cos (half t) : ℂ), -Real.sin (half t); (Real.sin (half t) : ℂ), Real.cos (half t)] := by
  simp [rot, pauli, Matrix.one_fin_two, mul_assoc, -ofReal_cos, -ofReal_sin]

theorem rot_z_eq (t : ℝ) : rot .z t = !![exp (-(half t * I)), 0; 0, exp (half t * I)] := by
  rw [← neg_mul, exp_mul_I, exp_mul_I]
  simp [rot, pauli, Matrix.one_fin_two, sub_eq_add_neg]

theorem scalar_cos (x : ℝ) : Scalar.cos x = Real.cos x := rfl

theorem scalar_sin (x : ℝ) : Scalar.sin x = Real.sin x := rfl

/-- The phase of a whole angle is twice the phase of its half. -/
theorem exp_toRadians (t : ℝ) : exp (Scalar.toRadians t * I) = exp (half t * I) * exp (half t * I) := by
  rw [← exp_add, toRadians_eq, half]
  congr 1
  push_cast
  ring

theorem Gate.matrix_rotation (a : Axis) (q : Qubit) (t : ℝ) : (Gate.rotation a q t).matrix = rot a t := by
  cases a with
  | x =>
    show (Operator.rx (Scalar.toRadians t)).toMatrix = _
    rw [rot_x_eq]
    simp [Operator.toMatrix, Operator.rx, toRadians_div_two, scalar_cos, scalar_sin]
  | y =>
    show (Operator.ry (Scalar.toRadians t)).toMatrix = _
    rw [rot_y_eq]
    simp [Operator.toMatrix, Operator.ry, toRadians_div_two, scalar_cos, scalar_sin]
  | z =>
    show (Operator.rz (Scalar.toRadians t)).toMatrix = _
    have hneg : -Scalar.toRadians t / 2.0 = -half t := by
      rw [← toRadians_div_two]
      exact neg_div _ _
    simp only [Operator.toMatrix, Operator.rz, Amplitude.toComplex_polar_one, Amplitude.toComplex_zero, hneg,
      toRadians_div_two, rot_z_eq, ofReal_neg, neg_mul]

theorem Operator.toMatrix_general (theta phi lambda : ℝ) :
    (Operator.general theta phi lambda).toMatrix =
      !![(Real.cos (theta / 2) : ℂ), -(Real.sin (theta / 2) * exp (lambda * I));
        Real.sin (theta / 2) * exp (phi * I), Real.cos (theta / 2) * exp ((phi + lambda) * I)] := by
  have h2 : theta / 2.0 = theta / 2 := by
    show theta / (2.0 : ℝ) = theta / 2
    norm_num
  simp only [toMatrix, general, Amplitude.toComplex_mk_zero, Amplitude.toComplex_neg, Amplitude.toComplex_polar, h2,
    scalar_cos, scalar_sin, ofReal_add]

/-- The general operator is a rotation around Y between two around Z, up to a phase. -/
theorem Euler.toMatrix_operator (e : Euler ℝ) :
    e.operator.toMatrix =
      exp (half (e.phi + e.lambda) * I) • (rot .z e.phi * rot .y e.theta * rot .z e.lambda) := by
  have hφ := exp_ne_zero (half e.phi * I)
  have hl := exp_ne_zero (half e.lambda * I)
  have hθ : Scalar.toRadians e.theta / 2 = half e.theta := by rw [toRadians_eq, half]
  simp only [operator, Operator.toMatrix_general, hθ, ofReal_add, add_mul, exp_add, exp_toRadians, half_add, rot_z_eq,
    rot_y_eq, exp_neg]
  ext i j
  fin_cases i <;> fin_cases j <;> simp [-ofReal_cos, -ofReal_sin] <;> field_simp

/-- The net matrix of gates in application order: the last gate is leftmost. -/
noncomputable def net : List (Gate ℝ) → Mat
  | [] => 1
  | g :: gs => net gs * g.matrix

theorem net_append (gs hs : List (Gate ℝ)) : net (gs ++ hs) = net hs * net gs := by
  induction gs with
  | nil => simp [net]
  | cons g gs ih => rw [List.cons_append, net, ih, net, mul_assoc]

theorem Gate.matrix_mem_unitary (g : Gate ℝ) : g.matrix ∈ unitary Mat := by
  cases g with
  | rotation a q t =>
    rw [matrix_rotation]
    exact rot_mem_unitary a t
  | cx control target => exact one_mem _
  | general q e =>
    show e.operator.toMatrix ∈ unitary Mat
    rw [e.toMatrix_operator]
    refine smul_mem_unitary (norm_exp_ofReal_mul_I _) ?_
    exact mul_mem (mul_mem (rot_mem_unitary _ _) (rot_mem_unitary _ _)) (rot_mem_unitary _ _)

theorem net_mem_unitary (gs : List (Gate ℝ)) : net gs ∈ unitary Mat := by
  induction gs with
  | nil => exact one_mem _
  | cons g gs ih => exact mul_mem ih g.matrix_mem_unitary

end RotationCircuits
