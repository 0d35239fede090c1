import RotationCircuits.Proofs.Binary64.Exactness

/-!
# Rounding errors

Rounding moves a number by at most `ulp` times a bound on it (`Rounded.abs_sub_le`). `Near` follows a computed double next to
the number it should be: errors add up, and each operation adds one of its own.
-/

namespace RotationCircuits.Binary64

/-- The distance between 1 and the next double. -/
noncomputable def ulp : ℝ := (2 : ℕ) ^ (-52 : Int)

/-- Far below the largest doubles. -/
noncomputable def safe : ℝ := (2 : ℕ) ^ (1010 : Int)

theorem ulp_eq : ulp = 2 ^ (-52 : Int) := by
  rw [ulp, Nat.cast_ofNat]

theorem safe_eq : safe = 2 ^ (1010 : Int) := by
  rw [safe, Nat.cast_ofNat]

theorem ulp_pos : 0 < ulp := by
  rw [ulp_eq]
  exact zpow_pos two_pos _

/-- **The error of one rounding**, relative to a bound on the result. -/
theorem Rounded.abs_sub_le {v b : ℝ} {x : Float} (h : Rounded v x) (hv : |v| ≤ b) (hb : 1 ≤ b)
    (hlarge : b ≤ safe) : x.isFinite = true ∧ |value x - v| ≤ ulp * b := by
  obtain ⟨k, hk⟩ : ∃ k, Int.log 2 b = k := ⟨_, rfl⟩
  have hle := Int.zpow_log_le_self (b := 2) one_lt_two (zero_lt_one.trans_le hb)
  have hlt := Int.lt_zpow_succ_log_self (b := 2) one_lt_two b
  rw [hk, Nat.cast_ofNat] at hle hlt
  have hexponent : 0 ≤ k ∧ k ≤ 1010 := by
    rw [safe_eq] at hlarge
    have hlower := (zpow_lt_zpow_iff_right₀ (one_lt_two (α := ℝ))).1 ((zpow_zero 2).trans_le hb |>.trans_lt hlt)
    have hupper := (zpow_le_zpow_iff_right₀ (one_lt_two (α := ℝ))).1 (hle.trans hlarge)
    omega
  -- The step is that of the doubles from the next power of two on, so that the bound has room to spare.
  have hstep : (0 : ℝ) < 2 ^ (k - 51) := zpow_pos two_pos _
  have hbits : |v| ≤ (2 ^ 53 - 1) * 2 ^ (k - 51) := by
    calc |v|
      _ ≤ 2 ^ (k + 1) := hv.trans hlt.le
      _ = 2 ^ (52 : ℤ) * 2 ^ (k - 51) := by
        rw [← zpow_add₀ two_ne_zero]
        congr 1
        ring
      _ ≤ (2 ^ 53 - 1) * 2 ^ (k - 51) := mul_le_mul_of_nonneg_right (by norm_num) hstep.le
  obtain ⟨hx, herror⟩ := h.abs_sub_le_half hbits (by omega) (by omega)
  refine ⟨hx, herror.trans ?_⟩
  calc (2 : ℝ) ^ (k - 51 - 1)
    _ = ulp * 2 ^ k := by
      rw [ulp_eq, ← zpow_add₀ two_ne_zero]
      congr 1
      ring
    _ ≤ ulp * b := mul_le_mul_of_nonneg_left hle ulp_pos.le

theorem ulp_mul_le {b : ℝ} (hb : 0 ≤ b) : ulp * b ≤ b / 16 := by
  have hulp : ulp ≤ 1 / 16 := by
    rw [ulp_eq]
    norm_num
  nlinarith

/-- A finite double at most `d` away from a real number that is at most `c`. -/
structure Near (d c v : ℝ) (x : Float) : Prop where
  isFinite : x.isFinite = true
  abs_sub_le : |value x - v| ≤ d
  abs_le : |v| ≤ c

variable {b c d e f v w : ℝ} {x y : Float}

theorem Near.neg (hx : Near d c v x) : Near d c (-v) (-x) := by
  refine ⟨by rw [isFinite_neg, hx.isFinite], ?_, ?_⟩
  · rw [value_neg, neg_sub_neg, abs_sub_comm]
    exact hx.abs_sub_le
  · rw [abs_neg]
    exact hx.abs_le

/-- Errors add up, and the sum is rounded once more. -/
theorem Near.add (hx : Near d c v x) (hy : Near e f w y) (hsum : c + f + (d + e) ≤ b) (hb : 1 ≤ b)
    (hlarge : b ≤ safe) : Near (d + e + ulp * b) (c + f) (v + w) (x + y) := by
  have hexact : |v + w| ≤ c + f := (abs_add_le _ _).trans (add_le_add hx.abs_le hy.abs_le)
  have herror : |value x + value y - (v + w)| ≤ d + e := by
    rw [add_sub_add_comm]
    exact (abs_add_le _ _).trans (add_le_add hx.abs_sub_le hy.abs_sub_le)
  have hvalue : |value x + value y| ≤ b := by
    calc |value x + value y|
      _ = |v + w + (value x + value y - (v + w))| := by rw [add_sub_cancel]
      _ ≤ c + f + (d + e) := (abs_add_le _ _).trans (add_le_add hexact herror)
      _ ≤ b := hsum
  obtain ⟨hfinite, hround⟩ := (rounded_add hx.isFinite hy.isFinite).abs_sub_le hvalue hb hlarge
  refine ⟨hfinite, ?_, hexact⟩
  calc |value (x + y) - (v + w)|
    _ = |value (x + y) - (value x + value y) + (value x + value y - (v + w))| := by rw [sub_add_sub_cancel]
    _ ≤ ulp * b + (d + e) := (abs_add_le _ _).trans (add_le_add hround herror)
    _ = d + e + ulp * b := add_comm _ _

theorem Near.sub (hx : Near d c v x) (hy : Near e f w y) (hsum : c + f + (d + e) ≤ b) (hb : 1 ≤ b)
    (hlarge : b ≤ safe) : Near (d + e + ulp * b) (c + f) (v - w) (x - y) := by
  rw [sub_eq_add_neg_float, sub_eq_add_neg]
  exact hx.add hy.neg hsum hb hlarge

/-- A factor that is at most 1 times a number that is not too large. -/
theorem near_mul (hx : Within 0 x) (hy : Near 0 b v y) (hb : 1 ≤ b) (hlarge : b ≤ safe) :
    Near (ulp * b) b (value x * v) (x * y) := by
  have hvalue : value y = v := sub_eq_zero.1 (abs_nonpos_iff.1 hy.abs_sub_le)
  have hproduct : |value x * v| ≤ b := by
    have hone := hx.abs_le
    rw [zpow_zero] at hone
    rw [abs_mul]
    exact (mul_le_of_le_one_left (abs_nonneg _) hone).trans hy.abs_le
  rw [← hvalue] at hproduct ⊢
  obtain ⟨hfinite, hround⟩ := (rounded_mul hx.isFinite hy.isFinite).abs_sub_le hproduct hb hlarge
  exact ⟨hfinite, hround, hproduct⟩

end RotationCircuits.Binary64
