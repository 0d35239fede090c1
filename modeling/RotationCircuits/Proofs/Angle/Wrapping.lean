import RotationCircuits.Proofs.Binary64.Exactness

/-!
# Reduced angles in doubles

Wrapping a double is wrapping its value and rounding once (`rounded_wrap`): the remainder is exact, and only the turn that is
added below zero is rounded. From there normalizing is exact, since a wrapped angle above half a turn is close enough to a
whole one. A normalized angle is wrapped to what the angle itself is wrapped to, except for a tiny negative angle, which is
wrapped to a whole turn and normalized to zero (`wrap_normalize`).
-/

namespace RotationCircuits.Angle

open Binary64

/-! ## The definitions and constants in doubles -/

theorem wrap_double_eq (x : Float) :
    wrap x = if Binary64.rem x 360.0 < 0.0 then Binary64.rem x 360.0 + 360.0 else Binary64.rem x 360.0 := rfl

theorem normalize_double_eq (x : Float) : normalize x = if 180.0 < wrap x then wrap x - 360.0 else wrap x := rfl

theorem isZero_double_eq (x : Float) :
    isZero x = (decide (wrap x < tolerance) || decide (360.0 - wrap x < tolerance)) := rfl

theorem unpack_turn : (360.0 : Float).toModel.unpack = .finite .positive (45 * 2 ^ 47) (-44) (by decide) := rfl

theorem unpack_halfTurn : (180.0 : Float).toModel.unpack = .finite .positive (45 * 2 ^ 47) (-45) (by decide) := rfl

theorem isFinite_turn : (360.0 : Float).isFinite = true := rfl

theorem isFinite_halfTurn : (180.0 : Float).isFinite = true := rfl

theorem value_turn : value (360.0 : Float) = 360 := by
  rw [value_of_unpack unpack_turn, valueOf_finite, signed]
  norm_num

theorem value_halfTurn : value (180.0 : Float) = 180 := by
  rw [value_of_unpack unpack_halfTurn, valueOf_finite, signed]
  norm_num

/-! ## Wrapping -/

theorem value_rem_turn {x : Float} (hx : x.isFinite = true) :
    (Binary64.rem x 360.0).isFinite = true ∧ value (Binary64.rem x 360.0) = Scalar.rem (value x) 360 := by
  have hrem := value_rem hx isFinite_turn (value_ne_zero_of_unpack unpack_turn)
  rwa [value_turn] at hrem

/-- **Wrapping a double** is wrapping its value and rounding once. -/
theorem rounded_wrap {x : Float} (hx : x.isFinite = true) : Rounded (wrap (value x)) (wrap x) := by
  obtain ⟨hfinite, hrem⟩ := value_rem_turn hx
  have hlt : Binary64.rem x 360.0 < 0.0 ↔ Scalar.rem (value x) 360 < 0 := by
    rw [lt_iff_value_lt hfinite rfl, hrem, value_zero]
  rw [wrap_eq, wrap_double_eq]
  by_cases hneg : Scalar.rem (value x) 360 < 0
  · have hsum := rounded_add hfinite isFinite_turn
    rw [hrem, value_turn] at hsum
    rwa [if_pos hneg, if_pos (hlt.2 hneg)]
  · rw [if_neg hneg, if_neg (mt hlt.1 hneg), ← hrem]
    exact .self _ hfinite

theorem value_wrap {x : Float} (hx : x.isFinite = true) :
    (wrap x).isFinite = true ∧ 0 ≤ value (wrap x) ∧ value (wrap x) ≤ 360 ∧
      |value (wrap x) - wrap (value x)| ≤ 2 ^ (-45 : ℤ) := by
  obtain ⟨-, -, hlower, hupper⟩ := exists_wrap_eq (value x)
  have hround := rounded_wrap hx
  have hbound : |wrap (value x)| ≤ (2 ^ 53 - 1) * 2 ^ (-44 : ℤ) := by
    rw [abs_of_nonneg hlower]
    norm_num
    linarith
  obtain ⟨hfinite, herror⟩ := hround.abs_sub_le_half hbound (by decide) (by decide)
  have hle := hround.value_le hfinite isFinite_turn (hupper.le.trans_eq value_turn.symm)
  have hge := hround.le_value hfinite (y := 0.0) rfl (value_zero.trans_le hlower)
  rw [value_turn] at hle
  rw [value_zero] at hge
  exact ⟨hfinite, hge, hle, herror⟩

/-! ## Normalizing -/

/-- A finite angle above minus half a turn and up to half a turn. -/
structure Reduced (x : Float) : Prop where
  isFinite : x.isFinite = true
  lower : -180 < value x
  upper : value x ≤ 180

/-- The turn that is taken off above half a turn does not cost a bit. -/
theorem normalize_cases {x : Float} (hx : x.isFinite = true) :
    value (wrap x) ≤ 180 ∧ normalize x = wrap x ∨
      180 < value (wrap x) ∧ normalize x = wrap x - 360.0 ∧ (normalize x).isFinite = true ∧
        value (normalize x) = value (wrap x) - 360 := by
  obtain ⟨hfinite, -, hle, -⟩ := value_wrap hx
  have hlt : 180.0 < wrap x ↔ 180 < value (wrap x) := by
    rw [lt_iff_value_lt isFinite_halfTurn hfinite, value_halfTurn]
  rw [normalize_double_eq]
  by_cases hhalf : 180 < value (wrap x)
  · rw [if_pos (hlt.2 hhalf)]
    obtain ⟨z, hz, hvalue⟩ := exists_double_eq_sub hfinite isFinite_turn (by rw [value_turn]; linarith)
      (by rw [value_turn]; linarith)
    obtain ⟨hfinite', hvalue'⟩ := (rounded_sub hfinite isFinite_turn).value_eq hz hvalue
    rw [value_turn] at hvalue'
    exact .inr ⟨hhalf, rfl, hfinite', hvalue'⟩
  · rw [if_neg (mt hlt.1 hhalf)]
    exact .inl ⟨not_lt.1 hhalf, rfl⟩

theorem reduced_normalize {x : Float} (hx : x.isFinite = true) : Reduced (normalize x) := by
  obtain ⟨hfinite, hge, hle, -⟩ := value_wrap hx
  rcases normalize_cases hx with ⟨hhalf, h⟩ | ⟨hhalf, -, hfinite', hvalue⟩
  · rw [h]
    exact ⟨hfinite, by linarith, hhalf⟩
  · exact ⟨hfinite', by linarith, by linarith⟩

/-- Normalizing takes off whole turns, up to the rounding of a sum below one turn. -/
theorem exists_normalize_near {x : Float} (hx : x.isFinite = true) :
    ∃ k : ℤ, |value (normalize x) - (value x - 360 * k)| ≤ 2 ^ (-45 : ℤ) := by
  obtain ⟨-, -, -, herror⟩ := value_wrap hx
  obtain ⟨k, hk, -⟩ := exists_wrap_eq (value x)
  rw [hk] at herror
  rcases normalize_cases hx with ⟨-, h⟩ | ⟨-, -, -, hvalue⟩
  · exact ⟨k, by rwa [h]⟩
  · refine ⟨k + 1, ?_⟩
    have hsame : value (normalize x) - (value x - 360 * ((k + 1 : ℤ) : ℝ)) = value (wrap x) - (value x - 360 * k) := by
      rw [hvalue]
      push_cast
      ring
    rwa [hsame]

/-! ## Angles that are reduced already -/

theorem rem_turn_of_abs_lt {x : Float} (hx : x.isFinite = true) (hlt : |value x| < 360) : Binary64.rem x 360.0 = x := by
  rcases unpack_cases hx with ⟨s, hu⟩ | ⟨s, m, e, hm, hu⟩
  · rw [Binary64.rem, hu, unpack_turn]
  · obtain ⟨hfinite, hrem⟩ := value_rem_turn hx
    rw [rem_of_abs_lt hlt] at hrem
    exact eq_of_value_eq hfinite hx hrem (hrem ▸ value_ne_zero_of_unpack hu)

theorem wrap_of_nonneg {x : Float} (hx : x.isFinite = true) (hnonneg : 0 ≤ value x) (hlt : value x < 360) :
    wrap x = x := by
  have hsign : ¬ x < 0.0 := by
    rw [lt_iff_value_lt hx rfl, value_zero]
    exact hnonneg.not_gt
  rw [wrap_double_eq, rem_turn_of_abs_lt hx (by rwa [abs_of_nonneg hnonneg]), if_neg hsign]

/-- A negative angle is wrapped to the double that is one turn above it, if there is one. -/
theorem wrap_of_neg {x r : Float} (hx : x.isFinite = true) (hneg : value x < 0) (hr : r.isFinite = true)
    (hvalue : value r = value x + 360) (hpos : 0 < value r) : wrap x = r := by
  have hsign : x < 0.0 := by rwa [lt_iff_value_lt hx rfl, value_zero]
  have hsum := rounded_add hx isFinite_turn
  rw [value_turn] at hsum
  obtain ⟨hfinite, hsame⟩ := hsum.value_eq hr hvalue
  rw [wrap_double_eq, rem_turn_of_abs_lt hx (by rw [abs_of_neg hneg]; linarith), if_pos hsign]
  exact eq_of_value_eq hfinite hr (hsame.trans hvalue.symm) (by linarith)

/-- **A normalized angle is wrapped like the angle itself**, unless that is wrapped to a whole turn. -/
theorem wrap_normalize {x : Float} (hx : x.isFinite = true) :
    wrap (normalize x) = wrap x ∨ wrap x = 360.0 ∧ normalize x = 0.0 := by
  obtain ⟨hfinite, hge, hle, -⟩ := value_wrap hx
  rcases normalize_cases hx with ⟨hhalf, h⟩ | ⟨hhalf, h, hfinite', hvalue⟩
  · rw [h]
    exact .inl (wrap_of_nonneg hfinite hge (by linarith))
  · rcases hle.lt_or_eq with hlt | hturn
    · exact .inl (wrap_of_neg hfinite' (by linarith) hfinite (by linarith) (by linarith))
    · have hwrap : wrap x = 360.0 := eq_of_value_eq hfinite isFinite_turn (hturn.trans value_turn.symm) (by linarith)
      rw [hwrap] at h
      exact .inr ⟨hwrap, h.trans (by decide)⟩

theorem normalize_normalize {x : Float} (hx : x.isFinite = true) : normalize (normalize x) = normalize x := by
  rcases wrap_normalize hx with h | ⟨-, h⟩
  · rw [normalize_double_eq (normalize x), h, ← normalize_double_eq]
  · rw [h]
    decide

end RotationCircuits.Angle
