import RotationCircuits.Proofs.Binary64.Arithmetic
import RotationCircuits.Proofs.Exact.Reals

/-!
# Exact results

A multiple of a power of two that needs at most 53 bits is a double (`exists_double_eq_signed`, `exists_double_eq_mul`), and
rounding does not change a number that is a double (`Rounded.value_eq`). Three facts follow. A rounded number is off by at
most half the step of its magnitude (`Rounded.abs_sub_le_half`). The difference of two doubles that are at most a factor of 2
apart is exact (`exists_double_eq_sub`). The remainder of a division is exact, whatever the quotient (`value_rem`).
-/

namespace RotationCircuits.Binary64

open Float.Model.UnpackedFloat (Sign)

/-! ## Numbers of at most 53 bits -/

/-- Up to 53 bits can be shifted up until they fill the mantissa or the exponent is the least one. -/
theorem exists_canonical_eq {m : Nat} {e : Int} (hpos : 0 < m) (hlt : m < 2 ^ 53) (hleast : -1074 ≤ e)
    (hgreatest : e ≤ 971) : ∃ n f, Canonical n f ∧ (n : ℝ) * 2 ^ f = m * 2 ^ e := by
  obtain ⟨k, hk⟩ : ∃ k : Nat, e = -1074 + k := ⟨(e + 1074).toNat, by omega⟩
  induction k generalizing m e with
  | zero => exact ⟨m, e, ⟨hpos, hlt, hleast, hgreatest, .inr (by omega)⟩, rfl⟩
  | succ k ih =>
    by_cases hfull : 2 ^ 52 ≤ m
    · exact ⟨m, e, ⟨hpos, hlt, hleast, hgreatest, .inl hfull⟩, rfl⟩
    · obtain ⟨n, f, hcanonical, hvalue⟩ :=
        ih (m := 2 * m) (e := e - 1) (by omega) (by omega) (by omega) (by omega) (by omega)
      refine ⟨n, f, hcanonical, hvalue.trans ?_⟩
      rw [zpow_sub_one₀ two_ne_zero]
      push_cast
      ring

theorem exists_double_eq_signed (s : Sign) {m : Nat} {e : Int} (hlt : m < 2 ^ 53) (hleast : -1074 ≤ e)
    (hgreatest : e ≤ 971) : ∃ y : Float, y.isFinite = true ∧ value y = signed s (m * 2 ^ e) := by
  rcases Nat.eq_zero_or_pos m with rfl | hpos
  · refine ⟨.ofModel (.pack (.zero s)), isFinite_pack_zero s, ?_⟩
    rw [value_pack_zero, Nat.cast_zero, zero_mul, signed_zero]
  · obtain ⟨n, f, hcanonical, hvalue⟩ := exists_canonical_eq hpos hlt hleast hgreatest
    refine ⟨ofCanonical s hcanonical, isFinite_ofCanonical s hcanonical, ?_⟩
    rw [value_ofCanonical, hvalue]

theorem exists_double_eq_mul {n : ℤ} {k : Int} (hn : |n| < 2 ^ 53) (hleast : -1074 ≤ k) (hgreatest : k ≤ 971) :
    ∃ y : Float, y.isFinite = true ∧ value y = n * 2 ^ k := by
  obtain ⟨s, m, rfl⟩ : ∃ (s : Sign) (m : Nat), n = s.apply m := by
    rcases n.eq_nat_or_neg with ⟨m, rfl | rfl⟩
    · exact ⟨.positive, m, rfl⟩
    · exact ⟨.negative, m, rfl⟩
  have hm : m < 2 ^ 53 := by
    cases s <;> simp only [Sign.apply, abs_neg, Nat.abs_cast] at hn <;> exact_mod_cast hn
  rw [← signed_natCast]
  exact exists_double_eq_signed s hm hleast hgreatest

/-! ## Rounding -/

namespace Rounded

variable {v : ℝ} {x y : Float}

/-- A number that is a double is not changed. -/
theorem value_eq (h : Rounded v x) (hy : y.isFinite = true) (hv : value y = v) : x.isFinite = true ∧ value x = v := by
  have hx : x.isFinite = true := h.isFinite_of_le hy (by rw [hv])
  have hnear := h.nearest hx y hy
  rw [hv, sub_self, abs_zero, abs_nonpos_iff, sub_eq_zero] at hnear
  exact ⟨hx, hnear⟩

/-- **The error of one rounding** is at most half the step between the doubles of that magnitude. -/
theorem abs_sub_le_half (h : Rounded v x) {k : Int} (hv : |v| ≤ (2 ^ 53 - 1) * 2 ^ k) (hleast : -1074 ≤ k)
    (hgreatest : k ≤ 971) : x.isFinite = true ∧ |value x - v| ≤ 2 ^ (k - 1) := by
  have hstep : (0 : ℝ) < 2 ^ k := zpow_pos two_pos k
  obtain ⟨n, hround⟩ : ∃ n : ℤ, |v / 2 ^ k - n| ≤ 1 / 2 := ⟨_, abs_sub_round _⟩
  have hn : |n| < 2 ^ 53 := by
    have hscaled : |v / 2 ^ k| ≤ 2 ^ 53 - 1 := by rwa [abs_div, abs_of_pos hstep, div_le_iff₀ hstep]
    have hlt : |(n : ℝ)| < 2 ^ 53 := by
      calc |(n : ℝ)|
        _ = |v / 2 ^ k - (v / 2 ^ k - n)| := by rw [sub_sub_cancel]
        _ ≤ |v / 2 ^ k| + |v / 2 ^ k - n| := abs_sub _ _
        _ < 2 ^ 53 := by linarith
    exact_mod_cast hlt
  obtain ⟨y, hy, hvalue⟩ := exists_double_eq_mul hn hleast hgreatest
  have hx : x.isFinite = true := by
    obtain ⟨z, hz, htop⟩ := exists_double_eq_mul (n := 2 ^ 53 - 1) (by decide) hleast hgreatest
    refine h.isFinite_of_le hz (hv.trans ((le_abs_self _).trans_eq ?_))
    rw [htop]
    norm_num
  refine ⟨hx, (h.nearest hx y hy).trans ?_⟩
  calc |value y - v|
    _ = |v / 2 ^ k - n| * 2 ^ k := by
      rw [hvalue, abs_sub_comm, ← abs_of_pos hstep, ← abs_mul, abs_of_pos hstep, sub_mul, div_mul_cancel₀ _ hstep.ne']
    _ ≤ 1 / 2 * 2 ^ k := mul_le_mul_of_nonneg_right hround hstep.le
    _ = 2 ^ (k - 1) := by
      rw [zpow_sub_one₀ two_ne_zero]
      ring

end Rounded

/-! ## Differences -/

/-- **Close doubles are subtracted exactly.** If neither of two doubles is more than twice the other, their difference is a
double. -/
theorem exists_double_eq_sub {x y : Float} (hx : x.isFinite = true) (hy : y.isFinite = true)
    (hlower : value y ≤ 2 * value x) (hupper : value x ≤ 2 * value y) :
    ∃ z : Float, z.isFinite = true ∧ value z = value x - value y := by
  rcases unpack_cases hx with ⟨s, hu⟩ | ⟨s, m, e, hm, hu⟩
  · have hxzero := value_of_zero hu
    have hyzero : value y = 0 := by linarith
    exact ⟨x, hx, by rw [hxzero, hyzero, sub_zero]⟩
  rcases unpack_cases hy with ⟨t, hv⟩ | ⟨t, n, f, hn, hv⟩
  · have hyzero := value_of_zero hv
    have hxzero : value x = 0 := by linarith
    exact ⟨y, hy, by rw [hxzero, hyzero, sub_zero]⟩
  -- Both are multiples of the step of the one with the smaller exponent, and the difference is not larger than that one.
  obtain ⟨k, hk⟩ : ∃ k, k = min e f := ⟨_, rfl⟩
  have hstep : (0 : ℝ) < 2 ^ k := zpow_pos two_pos k
  obtain ⟨i, hi⟩ := exists_value_eq_mul hu (show k ≤ e by omega)
  obtain ⟨j, hj⟩ := exists_value_eq_mul hv (show k ≤ f by omega)
  have hsmall : |value x - value y| < 2 ^ (53 + k) := by
    have hle : |value x - value y| ≤ |value x| ∧ |value x - value y| ≤ |value y| := by
      rw [abs_of_nonneg (show 0 ≤ value x by linarith), abs_of_nonneg (show 0 ≤ value y by linarith)]
      constructor <;> rw [abs_le] <;> constructor <;> linarith
    rcases le_total e f with hef | hef
    · rw [hk, min_eq_left hef]
      exact hle.1.trans_lt (abs_value_lt hu)
    · rw [hk, min_eq_right hef]
      exact hle.2.trans_lt (abs_value_lt hv)
  have hdifference : value x - value y = ((i - j : ℤ) : ℝ) * 2 ^ k := by
    rw [hi, hj, Int.cast_sub, sub_mul]
  have hij : |i - j| < 2 ^ 53 := by
    rw [hdifference, abs_mul, abs_of_pos hstep, zpow_add₀ two_ne_zero, mul_lt_mul_iff_left₀ hstep] at hsmall
    exact_mod_cast hsmall
  rw [hdifference]
  have hleast := hm.least
  have hleast' := hn.least
  have hgreatest := hm.greatest
  exact exists_double_eq_mul hij (by omega) (by omega)

/-! ## Remainders -/

theorem truncate_neg (v : ℝ) : truncate (-v) = -truncate v := by
  unfold truncate
  rcases lt_trichotomy v 0 with hv | rfl | hv
  · rw [if_pos (by linarith), if_neg hv.not_ge, Int.floor_neg]
  · simp
  · rw [if_neg (by linarith), if_pos hv.le, Int.ceil_neg]

theorem truncate_signed (s : Sign) (v : ℝ) : (truncate (signed s v) : ℝ) = signed s (truncate v) := by
  cases s with
  | positive => rfl
  | negative => rw [signed, signed, truncate_neg, Int.cast_neg]

theorem truncate_div (m n : Nat) : truncate ((m : ℝ) / n) = (m / n : ℕ) := by
  have hquotient : (0 : ℝ) ≤ m / n := by positivity
  rw [truncate, if_pos hquotient, ← Nat.floor_div_eq_div (K := ℝ), Int.natCast_floor_eq_floor hquotient]

/-- On multiples of one number the remainder is that of natural numbers, with the sign of the dividend. -/
theorem rem_signed (s t : Sign) (i j : Nat) {step : ℝ} (hstep : step ≠ 0) :
    Scalar.rem (signed s (i * step)) (signed t (j * step)) = signed s ((i % j : ℕ) * step) := by
  have hquotient : (truncate (signed s (i * step) / signed t (j * step)) : ℝ) = signed (s / t) ((i / j : ℕ) : ℝ) := by
    rw [← signed_div, mul_div_mul_right _ _ hstep, truncate_signed, truncate_div, Int.cast_natCast]
  have hsplit : (i : ℝ) = j * (i / j : ℕ) + (i % j : ℕ) := by exact_mod_cast (Nat.div_add_mod i j).symm
  show signed s (i * step) - signed t (j * step) * truncate (signed s (i * step) / signed t (j * step)) = _
  rw [hquotient]
  generalize i / j = q at hsplit ⊢
  generalize i % j = r at hsplit ⊢
  rw [hsplit]
  cases s <;> cases t <;> simp only [signed, HDiv.hDiv, Div.div] <;> ring

/-- **The remainder of a division is exact.** -/
theorem value_rem {x y : Float} (hx : x.isFinite = true) (hy : y.isFinite = true) (hne : value y ≠ 0) :
    (rem x y).isFinite = true ∧ value (rem x y) = Scalar.rem (value x) (value y) := by
  rcases unpack_cases hy with ⟨t, hv⟩ | ⟨t, n, f, hn, hv⟩
  · exact absurd (value_of_zero hv) hne
  rcases unpack_cases hx with ⟨s, hu⟩ | ⟨s, m, e, hm, hu⟩
  · have hrem : rem x y = x := by rw [rem, hu, hv]
    have hzero := rem_signed .positive .positive 0 1 hne
    rw [Nat.cast_zero, zero_mul, Nat.cast_one, one_mul] at hzero
    rw [hrem, value_of_zero hu]
    exact ⟨hx, hzero.symm⟩
  -- Over the smaller exponent both are whole, and the remainder has no more bits than one of them.
  obtain ⟨k, hk⟩ : ∃ k, k = min e f := ⟨_, rfl⟩
  obtain ⟨i, hi⟩ : ∃ i, i = m <<< (e - k).toNat := ⟨_, rfl⟩
  obtain ⟨j, hj⟩ : ∃ j, j = n <<< (f - k).toNat := ⟨_, rfl⟩
  have hbits : i % j < 2 ^ 53 := by
    rcases le_total e f with hef | hef
    · have hshift : (e - k).toNat = 0 := by omega
      rw [hshift, Nat.shiftLeft_zero] at hi
      exact (Nat.mod_le i j).trans_lt (hi ▸ hm.lt)
    · have hshift : (f - k).toNat = 0 := by omega
      rw [hshift, Nat.shiftLeft_zero] at hj
      exact (Nat.mod_lt i (hj ▸ hn.pos)).trans (hj ▸ hn.lt)
  have hexact : Scalar.rem (value x) (value y) = signed s ((i % j : ℕ) * 2 ^ k) := by
    rw [← rem_signed s t i j (zpow_ne_zero k two_ne_zero), value_of_unpack hu, value_of_unpack hv, valueOf_finite,
      valueOf_finite, hi, hj, shiftLeft_mul_two_zpow m (by omega), shiftLeft_mul_two_zpow n (by omega)]
  have hround : Rounded (signed s ((i % j : ℕ) * 2 ^ k)) (rem x y) := by
    have hrem : rem x y = ofParts s (i % j) k := by rw [rem, hu, hv, hi, hj, hk]
    exact hrem ▸ rounded_round s (i % j) k
  have hleast := hm.least
  have hleast' := hn.least
  have hgreatest := hm.greatest
  obtain ⟨z, hz, hzvalue⟩ := exists_double_eq_signed s hbits (show -1074 ≤ k by omega) (by omega)
  rw [hexact]
  exact hround.value_eq hz hzvalue

end RotationCircuits.Binary64
