import RotationCircuits.Proofs.Finite.Angles
import RotationCircuits.Proofs.Sequence.Settled

/-!
# The test for whole turns in doubles

The test compares a wrapped angle, and what it lacks to a whole turn, with the tolerance. Neither comparison adds an error to
that of wrapping (`isZero_iff`), so the test is right up to `2 ^ (-45)` about how far an angle is from a whole number of turns,
whatever its sign and magnitude. A normalized angle passes exactly if the angle itself does (`isZero_normalize`), so the same
holds of the rotations that renderings leave out.
-/

namespace RotationCircuits

open Binary64

namespace Angle

theorem unpack_tolerance : (tolerance : Float).toModel.unpack = .finite .positive 4835703278458517 (-82) (by decide) := rfl

theorem isFinite_tolerance : (tolerance : Float).isFinite = true := rfl

theorem value_tolerance : value (tolerance : Float) = 4835703278458517 * 2 ^ (-82 : ℤ) := by
  rw [value_of_unpack unpack_tolerance, valueOf_finite, signed]
  norm_num

/-- What a wrapped angle lacks to a whole turn is compared exactly: above half a turn it is computed exactly, and up to half
a turn it is far above the tolerance. -/
theorem turn_sub_wrap_lt_iff {x : Float} (hx : x.isFinite = true) :
    360.0 - wrap x < tolerance ↔ 360 - value (wrap x) < value (tolerance : Float) := by
  obtain ⟨hfinite, hge, hle, -⟩ := value_wrap hx
  have hround := rounded_sub isFinite_turn hfinite
  rw [value_turn] at hround
  rcases le_or_gt (value (wrap x)) 180 with hhalf | hhalf
  · have hsmall : value (tolerance : Float) < 180 := by
      rw [value_tolerance]
      norm_num
    have hfinite' : (360.0 - wrap x).isFinite = true := by
      refine hround.isFinite_of_le isFinite_turn ?_
      rw [value_turn, abs_of_nonneg (by linarith), abs_of_nonneg (by norm_num)]
      linarith
    have hlarge := hround.le_value hfinite' isFinite_halfTurn (by rw [value_halfTurn]; linarith)
    rw [value_halfTurn] at hlarge
    rw [lt_iff_value_lt hfinite' isFinite_tolerance]
    exact iff_of_false (by linarith) (by linarith)
  · obtain ⟨z, hz, hvalue⟩ := exists_double_eq_sub isFinite_turn hfinite (by rw [value_turn]; linarith)
      (by rw [value_turn]; linarith)
    rw [value_turn] at hvalue
    obtain ⟨hfinite', hexact⟩ := hround.value_eq hz hvalue
    rw [lt_iff_value_lt hfinite' isFinite_tolerance, hexact]

/-- The test looks at how far the wrapped angle is from the nearer end of its turn. -/
theorem isZero_iff {x : Float} (hx : x.isFinite = true) :
    isZero x = true ↔ min (value (wrap x)) (360 - value (wrap x)) < value (tolerance : Float) := by
  obtain ⟨hfinite, -⟩ := value_wrap hx
  rw [isZero_double_eq, Bool.or_eq_true, decide_eq_true_iff, decide_eq_true_iff, turn_sub_wrap_lt_iff hx,
    lt_iff_value_lt hfinite isFinite_tolerance, min_lt_iff]

/-- That distance differs from the exact one by the error of wrapping. -/
theorem abs_min_wrap_sub_offTurns_le {x : Float} (hx : x.isFinite = true) :
    |min (value (wrap x)) (360 - value (wrap x)) - offTurns (value x)| ≤ 2 ^ (-45 : ℤ) := by
  obtain ⟨-, -, -, herror⟩ := value_wrap hx
  rw [offTurns_eq_min]
  refine (abs_min_sub_min_le_max _ _ _ _).trans (max_le herror ?_)
  rwa [sub_sub_sub_cancel_left, abs_sub_comm]

/-- Normalizing does not change whether an angle is taken as zero. -/
theorem isZero_normalize {x : Float} (hx : x.isFinite = true) : isZero (normalize x) = isZero x := by
  rcases wrap_normalize hx with h | ⟨hwrap, h⟩
  · rw [isZero_double_eq, h, ← isZero_double_eq]
  · rw [isZero_double_eq x, hwrap, h]
    decide

end Angle

namespace Sequence.Turn

theorem single_eq_nil_iff {t : Turn Float} : single t = [] ↔ Angle.isZero t.angle = true := by
  unfold single
  split <;> simp_all

end Sequence.Turn

namespace Angle

open Sequence (Turn)

/-- **The test for whole turns.** Angles that are nearer to a whole number of turns than the tolerance, less `2 ^ (-45)`, pass
the test, and those that pass are nearer than the tolerance and `2 ^ (-45)`. A rotation is left out exactly if its angle passes,
alone, where two rotations around one axis are merged, and in a rendering. -/
theorem zero_test_measures_distance (x : Float) (hx : x.isFinite = true) :
    (offTurns (value x) < value (tolerance : Float) - 2 ^ (-45 : ℤ) → isZero x = true) ∧
    (isZero x = true → offTurns (value x) < value (tolerance : Float) + 2 ^ (-45 : ℤ)) ∧
    ∀ axis : Axis, (Turn.single ⟨axis, x⟩ = [] ↔ isZero x = true) ∧
      (∀ a b : Float, a + b = x → (Turn.pair ⟨axis, a⟩ ⟨axis, b⟩ = [] ↔ isZero x = true)) ∧
      ∀ q : Qubit, Rendering.turn axis q x = [] ↔ isZero x = true := by
  obtain ⟨hlower, hupper⟩ := abs_le.1 (abs_min_wrap_sub_offTurns_le hx)
  refine ⟨fun hnear => ?_, fun hzero => ?_, fun axis => ⟨Turn.single_eq_nil_iff, ?_, fun q => ?_⟩⟩
  · rw [isZero_iff hx]
    linarith
  · rw [isZero_iff hx] at hzero
    linarith
  · rintro a b rfl
    have hpair : Turn.pair ⟨axis, a⟩ ⟨axis, b⟩ = Turn.single ⟨axis, a + b⟩ := Turn.pair_of_axis_eq rfl
    rw [hpair, Turn.single_eq_nil_iff]
  · rw [Rendering.turn_eq_nil_iff, isZero_normalize hx]

/-- Two whole turns pass. The tolerance itself does not pass, but its negative does: the turn that is added to it is rounded. -/
theorem zero_test_measures_distance_edges :
    offTurns (value 720.0) < value (tolerance : Float) - 2 ^ (-45 : ℤ) ∧ isZero (720.0 : Float) = true ∧
      isZero (tolerance : Float) = false ∧ isZero (-tolerance : Float) = true ∧
      offTurns (value (-tolerance)) < value (tolerance : Float) + 2 ^ (-45 : ℤ) := by
  have hturns : value (720.0 : Float) = 720 := by
    have hunpack : (720.0 : Float).toModel.unpack = .finite .positive (45 * 2 ^ 47) (-43) (by decide) := rfl
    rw [value_of_unpack hunpack, valueOf_finite, signed]
    norm_num
  have hnear : offTurns (value 720.0) < value (tolerance : Float) - 2 ^ (-45 : ℤ) := by
    have hle := offTurns_le (value 720.0) 2
    rw [hturns] at hle ⊢
    rw [value_tolerance]
    norm_num at hle ⊢
    linarith
  obtain ⟨htwo, -, -⟩ := zero_test_measures_distance 720.0 rfl
  obtain ⟨-, hnegative, -⟩ := zero_test_measures_distance (-tolerance) rfl
  have hpasses : isZero (-tolerance : Float) = true := by decide +kernel
  exact ⟨hnear, htwo hnear, by decide +kernel, hpasses, hnegative hpasses⟩

end Angle

end RotationCircuits
