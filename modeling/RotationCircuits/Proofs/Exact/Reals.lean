import Mathlib.Analysis.SpecialFunctions.Complex.Arg
import RotationCircuits.Angle

/-!
# Angles over the real numbers

The real numbers are scalars without rounding: every operation is the mathematical one, and the remainder of a division is
taken toward zero. Over them `Angle.wrap` and `Angle.normalize` change an angle by whole turns only, and the tests
`Angle.isZero` and `Angle.isNear` say how far an angle can be from what it is taken for.
-/

namespace RotationCircuits

/-- The quotient rounded toward zero. -/
noncomputable def truncate (x : ℝ) : ℤ := if 0 ≤ x then ⌊x⌋ else ⌈x⌉

noncomputable instance : Scalar ℝ where
  decidableLT := fun _ _ => Classical.propDecidable _
  abs x := |x|
  sqrt := Real.sqrt
  sin := Real.sin
  cos := Real.cos
  atan2 y x := Complex.arg ⟨x, y⟩
  hypot x y := ‖(⟨x, y⟩ : ℂ)‖
  rem x y := x - y * truncate (x / y)
  pi := Real.pi
  isFinite _ := true
  isNaN _ := false

theorem toRadians_eq (x : ℝ) : Scalar.toRadians x = x * (Real.pi / 180) := by
  show x * (Real.pi / 180.0) = _
  norm_num

theorem toRadians_toDegrees (x : ℝ) : Scalar.toRadians (Scalar.toDegrees x) = x := by
  rw [toRadians_eq]
  show x * (180.0 / Real.pi) * (Real.pi / 180) = x
  field_simp
  norm_num

namespace Angle

/-- A remainder is within one turn of zero and differs from the angle by whole turns. -/
theorem exists_rem_eq (a : ℝ) : ∃ k : ℤ, Scalar.rem a 360 = a - 360 * k ∧ |Scalar.rem a 360| < 360 := by
  refine ⟨truncate (a / 360), rfl, ?_⟩
  show |a - 360 * truncate (a / 360)| < 360
  have ha : a / 360 * 360 = a := by ring
  unfold truncate
  rw [abs_lt]
  split
  · have h₁ := Int.floor_le (a / 360)
    have h₂ := Int.lt_floor_add_one (a / 360)
    constructor <;> linarith
  · have h₁ := Int.le_ceil (a / 360)
    have h₂ := Int.ceil_lt_add_one (a / 360)
    constructor <;> linarith

/-- Within one turn of zero the remainder is the angle itself. -/
theorem rem_of_abs_lt {a : ℝ} (h : |a| < 360) : Scalar.rem a 360 = a := by
  have htruncate : truncate (a / 360) = 0 := by
    rw [abs_lt] at h
    unfold truncate
    split
    · exact Int.floor_eq_zero_iff.2 ⟨‹_›, by linarith⟩
    · exact Int.ceil_eq_zero_iff.2 ⟨by linarith, by linarith⟩
  show a - 360 * truncate (a / 360) = a
  rw [htruncate, Int.cast_zero, mul_zero, sub_zero]

theorem wrap_eq (a : ℝ) : wrap a = if Scalar.rem a 360 < 0 then Scalar.rem a 360 + 360 else Scalar.rem a 360 := by
  have h360 : (360.0 : ℝ) = 360 := by norm_num
  have h0 : (0.0 : ℝ) = 0 := by norm_num
  show (if Scalar.rem a (360.0 : ℝ) < (0.0 : ℝ) then Scalar.rem a (360.0 : ℝ) + (360.0 : ℝ)
    else Scalar.rem a (360.0 : ℝ)) = _
  rw [h360, h0]

/-- Wrapping takes off whole turns until the angle is in `[0, 360)`. -/
theorem exists_wrap_eq (a : ℝ) : ∃ k : ℤ, wrap a = a - 360 * k ∧ 0 ≤ wrap a ∧ wrap a < 360 := by
  obtain ⟨k, hk, habs⟩ := exists_rem_eq a
  rw [abs_lt] at habs
  rw [wrap_eq]
  split
  · refine ⟨k - 1, ?_, ?_, ?_⟩
    · rw [hk]
      push_cast
      ring
    · linarith
    · linarith
  · refine ⟨k, hk, ?_, habs.2⟩
    linarith

/-- Normalizing takes off whole turns until the angle is in `(-180, 180]`. -/
theorem exists_normalize_eq (a : ℝ) : ∃ k : ℤ, normalize a = a - 360 * k ∧ -180 < normalize a ∧ normalize a ≤ 180 := by
  obtain ⟨k, hk, h0, h1⟩ := exists_wrap_eq a
  have hnorm : normalize a = if 180 < wrap a then wrap a - 360 else wrap a := by
    have h180 : (180.0 : ℝ) = 180 := by norm_num
    have h360 : (360.0 : ℝ) = 360 := by norm_num
    show (if (180.0 : ℝ) < wrap a then wrap a - (360.0 : ℝ) else wrap a) = _
    rw [h180, h360]
  rw [hnorm]
  split
  · refine ⟨k + 1, ?_, ?_, ?_⟩
    · rw [hk]
      push_cast
      ring
    · linarith
    · linarith
  · refine ⟨k, hk, ?_, ?_⟩ <;> linarith

/-- An angle that is taken as zero is near a whole number of turns. -/
theorem exists_abs_sub_lt_of_isZero {a : ℝ} (h : isZero a = true) : ∃ k : ℤ, |a - 360 * k| < 1e-9 := by
  obtain ⟨k, hk, h0, h360⟩ := exists_wrap_eq a
  rw [isZero, Bool.or_eq_true, decide_eq_true_iff, decide_eq_true_iff] at h
  rcases h with h | h
  · have hlt : wrap a < (1e-9 : ℝ) := h
    refine ⟨k, ?_⟩
    rwa [← hk, abs_of_nonneg h0]
  · have hlt : (360.0 : ℝ) - wrap a < (1e-9 : ℝ) := h
    norm_num at hlt
    refine ⟨k + 1, ?_⟩
    have hsub : a - 360 * ((k + 1 : ℤ) : ℝ) = wrap a - 360 := by
      rw [hk]
      push_cast
      ring
    rw [hsub, abs_of_neg (by linarith)]
    norm_num
    linarith

/-- How far an angle is from the nearest whole number of turns. -/
noncomputable def offTurns (a : ℝ) : ℝ := |a - 360 * round (a / 360)|

theorem offTurns_le (a : ℝ) (k : ℤ) : offTurns a ≤ |a - 360 * k| := by
  have hscale : ∀ n : ℤ, |a - 360 * n| = 360 * |a / 360 - n| := by
    intro n
    rw [← abs_of_pos (by norm_num : (0 : ℝ) < 360), ← abs_mul, abs_of_pos (by norm_num : (0 : ℝ) < 360)]
    congr 1
    ring
  rw [offTurns, hscale, hscale]
  have := round_le (a / 360) k
  linarith

/-- The nearest whole number of turns is the one below or the one above. -/
theorem offTurns_eq_min (a : ℝ) : offTurns a = min (wrap a) (360 - wrap a) := by
  obtain ⟨k, hk, h0, h360⟩ := exists_wrap_eq a
  have hturns (n : ℤ) : a - 360 * n = wrap a - 360 * ((n - k : ℤ) : ℝ) := by
    rw [hk]
    push_cast
    ring
  apply le_antisymm
  · have hbelow := offTurns_le a k
    have habove := offTurns_le a (k + 1)
    rw [hturns, sub_self, Int.cast_zero, mul_zero, sub_zero, abs_of_nonneg h0] at hbelow
    rw [hturns, add_sub_cancel_left, Int.cast_one, mul_one, abs_of_nonpos (by linarith), neg_sub] at habove
    exact le_min hbelow habove
  · rw [offTurns, hturns]
    generalize round (a / 360) - k = n
    rcases le_or_gt n 0 with hn | hn
    · have hcast : (n : ℝ) ≤ 0 := by exact_mod_cast hn
      exact (min_le_left _ _).trans (le_trans (by linarith) (le_abs_self _))
    · have hcast : (1 : ℝ) ≤ n := by exact_mod_cast hn
      exact (min_le_right _ _).trans (le_trans (by linarith) (neg_le_abs _))

theorem offTurns_nonneg (a : ℝ) : 0 ≤ offTurns a := abs_nonneg _

theorem offTurns_lt_of_isZero {a : ℝ} (h : isZero a = true) : offTurns a < 1e-9 := by
  obtain ⟨k, hk⟩ := exists_abs_sub_lt_of_isZero h
  exact (offTurns_le a k).trans_lt hk

theorem abs_sub_lt_of_isNear {a t : ℝ} (h : isNear a t = true) : |a - t| < 1e-9 := by
  rw [isNear, decide_eq_true_iff] at h
  exact h

end Angle

end RotationCircuits
