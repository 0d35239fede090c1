import RotationCircuits.Proofs.Binary64.Rounding

/-!
# Arithmetic of doubles

Sums, differences, products, quotients and square roots of finite doubles, and the length of a hypotenuse, are the exact
results rounded to the nearest double. A sum or a product is finite only if both operands are.
-/

namespace RotationCircuits.Binary64

open Float.Model (Format UnpackedFloat totalExponent)
open Float.Model.UnpackedFloat

/-! ## Magnitudes of doubles -/

/-- The largest double is half a step below the limit. -/
theorem abs_value_add_le_limit {x : Float} (hx : x.isFinite = true) : |value x| + 2 ^ 970 ≤ limit := by
  have hlimit : limit = (2 ^ 54 - 1) * 2 ^ 970 := by
    rw [limit_eq, show (2 : ℝ) ^ 1024 = 2 ^ 54 * 2 ^ 970 from pow_add 2 54 970, sub_mul, one_mul]
  have hpow (e : Int) (he : e ≤ 971) : (2 : ℝ) ^ e ≤ 2 * 2 ^ 970 := by
    rw [← pow_succ', ← zpow_natCast]
    exact zpow_le_zpow_right₀ one_le_two he
  have hstep : (0 : ℝ) < 2 ^ 970 := pow_pos two_pos _
  rw [hlimit]
  generalize (2 : ℝ) ^ 970 = step at hpow hstep
  rcases unpack_cases hx with ⟨s, hu⟩ | ⟨s, m, e, hm, hu⟩
  · rw [value_of_zero hu, abs_zero]
    linarith
  · have hmantissa : (m : ℝ) ≤ 2 ^ 53 - 1 := by
      have hcast : (m : ℝ) + 1 ≤ 2 ^ 53 := by exact_mod_cast hm.lt
      linarith
    rw [value_of_unpack hu, valueOf_finite, abs_signed, abs_of_nonneg (by positivity)]
    calc (m : ℝ) * 2 ^ e + step
      _ ≤ (2 ^ 53 - 1) * (2 * step) + step := by
        gcongr
        exact hpow e hm.greatest
      _ = (2 ^ 54 - 1) * step := by ring

theorem abs_value_lt_limit {x : Float} (hx : x.isFinite = true) : |value x| < limit := by
  have hstep : (0 : ℝ) < 2 ^ 970 := pow_pos two_pos _
  exact (lt_add_of_pos_right _ hstep).trans_le (abs_value_add_le_limit hx)

theorem Rounded.isFinite_of_le {v : ℝ} {x y : Float} (h : Rounded v x) (hy : y.isFinite = true) (hv : |v| ≤ |value y|) :
    x.isFinite = true :=
  h.isFinite (hv.trans_lt (abs_value_lt_limit hy))

/-- Powers of two are doubles. -/
theorem exists_value_eq_two_zpow {k : Int} (hleast : -1022 ≤ k) (hgreatest : k ≤ 1023) :
    ∃ y : Float, y.isFinite = true ∧ value y = 2 ^ k := by
  have hcanonical : Canonical (2 ^ 52) (k - 52) := ⟨by decide, by decide, by omega, by omega, .inl le_rfl⟩
  refine ⟨ofCanonical .positive hcanonical, isFinite_ofCanonical _ _, ?_⟩
  rw [value_ofCanonical, signed, show ((2 ^ 52 : ℕ) : ℝ) = 2 ^ (52 : Int) by norm_num, ← zpow_add₀ two_ne_zero,
    add_sub_cancel]

/-- A finite double whose magnitude is at most a power of two. -/
structure Within (k : Int) (x : Float) : Prop where
  isFinite : x.isFinite = true
  abs_le : |value x| ≤ 2 ^ k

theorem within_of_unpack {x : Float} {s : Sign} {m : Nat} {e : Int} {hpos : 0 < m}
    (hu : x.toModel.unpack = .finite s m e hpos) : Within (53 + e) x := by
  refine ⟨?_, (abs_value_lt hu).le⟩
  rw [isFinite_eq, hu]
  rfl

/-- Every finite double is below the power of two at the end of the range. -/
theorem within_of_isFinite {x : Float} (hx : x.isFinite = true) : Within 1024 x := by
  refine ⟨hx, (abs_value_lt_limit hx).le.trans ?_⟩
  have hstep : (0 : ℝ) < 2 ^ 970 := pow_pos two_pos _
  rw [limit_eq]
  exact sub_le_self _ hstep.le

/-- Rounding keeps a bound by a power of two. -/
theorem Rounded.within {v : ℝ} {x : Float} (h : Rounded v x) {k : Int} (hv : |v| ≤ 2 ^ k) (hleast : -1022 ≤ k)
    (hgreatest : k ≤ 1023) : Within k x := by
  obtain ⟨y, hy, hvalue⟩ := exists_value_eq_two_zpow hleast hgreatest
  have habs : |value y| = 2 ^ k := by
    rw [hvalue]
    exact abs_of_pos (zpow_pos two_pos k)
  rw [← habs] at hv
  have hx := h.isFinite_of_le hy hv
  exact ⟨hx, habs ▸ h.abs_value_le hx hy hv⟩

/-! ## Exact results of finitely many bits -/

theorem roundWithAccuracy_zero (s : Sign) (e : Int) : roundWithAccuracy .binary64 s 0 e .exact = .zero s := by
  have hshift (k : Nat) : (⟨0, false, false⟩ : ExtendedMantissa) >>> k = ⟨0, false, false⟩ := by
    have hmul := shiftRight_mul_two_pow 0 k
    rwa [Nat.zero_mul] at hmul
  have hextend : ExtendedMantissa.ofMantissaAndAccuracy 0 .exact = ⟨0, false, false⟩ := rfl
  have hround : (⟨0, false, false⟩ : ExtendedMantissa).roundedMantissa = 0 := rfl
  simp only [roundWithAccuracy, shiftToTargetExponent, shiftToExponent, hextend, hshift, hround, dite_true]

theorem rounded_zero (s : Sign) : Rounded 0 (.ofModel (.pack (.zero s))) := by
  have hself := Rounded.self _ (isFinite_pack_zero s)
  rwa [value_pack_zero] at hself

theorem rounded_round (s : Sign) (m : Nat) (e : Int) :
    Rounded (signed s (m * 2 ^ e)) (.ofModel (.pack (UnpackedFloat.round .binary64 s m e))) := by
  obtain ⟨E, hE⟩ : ∃ E, E = Format.binary64.targetExponent (totalExponent m e) := ⟨_, rfl⟩
  have hround : UnpackedFloat.round .binary64 s m e =
      roundWithAccuracy .binary64 s (m <<< (e - min e E).toNat) (min e E) .exact := by
    have hexponent : e - ((e - min e E).toNat : ℤ) = min e E := by omega
    have hshift : (e - E).toNat = (e - min e E).toNat := by omega
    simp only [UnpackedFloat.round, decreaseExponent, ← hE, hshift, hexponent]
  rw [hround]
  rcases Nat.eq_zero_or_pos m with rfl | hm
  · rw [Nat.zero_shiftLeft, roundWithAccuracy_zero, Nat.cast_zero, zero_mul, signed_zero]
    exact rounded_zero s
  · have hvalue := shiftLeft_mul_two_zpow m (min_le_left e E)
    rw [← hvalue]
    refine rounded_roundWithAccuracy s ?_ ?_
    · exact mul_div_cancel_right₀ _ (zpow_ne_zero _ two_ne_zero)
    · have htotal : totalExponent (m <<< (e - min e E).toNat) (min e E) = totalExponent m e := by
        rw [totalExponent, totalExponent, Nat.shiftLeft_eq, log2_mul_two_pow hm]
        push_cast
        omega
      rw [htotal, ← hE]
      exact min_le_right e E

theorem signed_natCast (s : Sign) (m : Nat) (e : Int) : signed s (m * 2 ^ e) = (s.apply m : ℤ) * 2 ^ e := by
  cases s <;> simp [signed, Sign.apply]

theorem rounded_normalize (m e : Int) (z : Sign) :
    Rounded (m * 2 ^ e) (.ofModel (.pack (UnpackedFloat.normalize .binary64 m e z))) := by
  unfold UnpackedFloat.normalize
  rcases lt_trichotomy m 0 with h | rfl | h
  · rw [compare_lt_iff_lt.2 h]
    have hround := rounded_round .negative (-m).toNat e
    rwa [signed_natCast, Int.toNat_of_nonneg (by omega), Sign.apply, neg_neg] at hround
  · rw [compare_eq_iff_eq.2 rfl, Int.cast_zero, zero_mul]
    exact rounded_zero z
  · rw [compare_gt_iff_gt.2 h]
    have hround := rounded_round .positive m.toNat e
    rwa [signed_natCast, Int.toNat_of_nonneg (by omega)] at hround

/-! ## Sums and differences -/

theorem aligned (s : Sign) (m : Nat) {e f : Int} (h : f ≤ e) :
    ((s.apply (m <<< (e - f).toNat : ℕ) : ℤ) : ℝ) * 2 ^ f = signed s (m * 2 ^ e) := by
  rw [← signed_natCast, shiftLeft_mul_two_zpow m h]

/-- **A sum is rounded to the nearest double.** -/
theorem rounded_add {x y : Float} (hx : x.isFinite = true) (hy : y.isFinite = true) :
    Rounded (value x + value y) (x + y) := by
  have hsum : x + y = .ofModel (.pack (UnpackedFloat.add .binary64 x.toModel.unpack y.toModel.unpack)) := rfl
  rcases unpack_cases hx with ⟨s, hu⟩ | ⟨s, m, e, hm, hu⟩ <;> rcases unpack_cases hy with ⟨t, hv⟩ | ⟨t, n, f, hn, hv⟩
  · obtain ⟨r, hr⟩ : ∃ r, x + y = .ofModel (.pack (.zero r)) := by
      rw [hsum, hu, hv]
      cases s <;> cases t <;> exact ⟨_, rfl⟩
    rw [value_of_zero hu, value_of_zero hv, zero_add, hr]
    exact rounded_zero r
  · have hself : x + y = y := by
      refine Eq.trans ?_ (pack_unpack y)
      rw [hsum, hu, hv]
      rfl
    rw [value_of_zero hu, zero_add, hself]
    exact .self y hy
  · have hself : x + y = x := by
      refine Eq.trans ?_ (pack_unpack x)
      rw [hsum, hu, hv]
      rfl
    rw [value_of_zero hv, add_zero, hself]
    exact .self x hx
  -- On the grid of the smaller exponent both summands are whole.
  · have hsmaller : x + y = .ofModel (.pack (UnpackedFloat.normalize .binary64
        (s.apply (m <<< (e - min e f).toNat : ℕ) + t.apply (n <<< (f - min e f).toNat : ℕ)) (min e f) .positive)) := by
      rw [hsum, hu, hv]
      rfl
    have hround := rounded_normalize (s.apply (m <<< (e - min e f).toNat : ℕ) + t.apply (n <<< (f - min e f).toNat : ℕ))
      (min e f) .positive
    rw [Int.cast_add, add_mul, aligned s m (min_le_left e f), aligned t n (min_le_right e f), ← hsmaller] at hround
    rw [value_of_unpack hu, value_of_unpack hv, valueOf_finite, valueOf_finite]
    exact hround

theorem apply_neg (s : Sign) (n : Int) : (-s).apply n = -s.apply n := by
  cases s with
  | positive => rfl
  | negative => exact (neg_neg n).symm

/-- A difference is the sum with the negated double. -/
theorem sub_eq_add_neg_float (x y : Float) : x - y = x + -y := by
  change Float.ofModel (.pack (UnpackedFloat.sub .binary64 x.toModel.unpack y.toModel.unpack)) =
    .ofModel (.pack (UnpackedFloat.add .binary64 x.toModel.unpack (-y).toModel.unpack))
  rw [unpack_neg]
  congr 2
  cases x.toModel.unpack with
  | finite s m e hm =>
    cases y.toModel.unpack with
    | finite t n f hn => simp only [UnpackedFloat.sub, UnpackedFloat.neg, UnpackedFloat.add, apply_neg, sub_eq_add_neg]
    | _ => rfl
  | _ => cases y.toModel.unpack <;> rfl

theorem rounded_sub {x y : Float} (hx : x.isFinite = true) (hy : y.isFinite = true) :
    Rounded (value x - value y) (x - y) := by
  have hneg : (-y).isFinite = true := by rwa [isFinite_neg]
  have hround := rounded_add hx hneg
  rwa [value_neg, ← sub_eq_add_neg, ← sub_eq_add_neg_float] at hround

theorem isFinite_of_pack {u : UnpackedFloat} (h : (Float.ofModel (.pack u)).isFinite = true) : u.isFinite = true := by
  cases u with
  | infinity s => cases s <;> cases h
  | notANumber => cases h
  | _ => rfl

/-- A sum is finite only if both operands are. -/
theorem isFinite_of_add {x y : Float} (h : (x + y).isFinite = true) : x.isFinite = true ∧ y.isFinite = true := by
  have hoperands (u v : UnpackedFloat) :
      (UnpackedFloat.add .binary64 u v).isFinite = true → u.isFinite = true ∧ v.isFinite = true := by
    fun_cases UnpackedFloat.add .binary64 u v <;> simp_all [UnpackedFloat.isFinite]
  exact hoperands _ _ (isFinite_of_pack h)

/-! ## Products -/

theorem signed_mul (s t : Sign) (v w : ℝ) : signed (s * t) (v * w) = signed s v * signed t w := by
  cases s <;> cases t <;> simp only [signed, mul_neg, neg_mul, neg_neg]

/-- **A product is rounded to the nearest double.** -/
theorem rounded_mul {x y : Float} (hx : x.isFinite = true) (hy : y.isFinite = true) :
    Rounded (value x * value y) (x * y) := by
  have hproduct : x * y = .ofModel (.pack (UnpackedFloat.mul .binary64 x.toModel.unpack y.toModel.unpack)) := rfl
  rcases unpack_cases hx with ⟨s, hu⟩ | ⟨s, m, e, hm, hu⟩
  · obtain ⟨r, hr⟩ : ∃ r, x * y = .ofModel (.pack (.zero r)) := by
      rcases unpack_cases hy with ⟨t, hv⟩ | ⟨t, n, f, hn, hv⟩ <;> exact ⟨s * t, by rw [hproduct, hu, hv]; rfl⟩
    rw [value_of_zero hu, zero_mul, hr]
    exact rounded_zero r
  rcases unpack_cases hy with ⟨t, hv⟩ | ⟨t, n, f, hn, hv⟩
  · have hzero : x * y = .ofModel (.pack (.zero (s * t))) := by
      rw [hproduct, hu, hv]
      rfl
    rw [value_of_zero hv, mul_zero, hzero]
    exact rounded_zero (s * t)
  · have hexact : value x * value y = signed (s * t) ((m * n : ℕ) * 2 ^ (e + f)) := by
      rw [value_of_unpack hu, value_of_unpack hv, valueOf_finite, valueOf_finite, ← signed_mul, zpow_add₀ two_ne_zero]
      push_cast
      ring_nf
    rw [hproduct, hu, hv, hexact]
    refine rounded_roundWithAccuracy (s * t) (mul_div_cancel_right₀ _ (zpow_ne_zero _ two_ne_zero)) ?_
    rw [binary64_targetExponent, totalExponent]
    have hpos := Nat.mul_pos hm.pos hn.pos
    have hlong (h : 2 ^ 52 ≤ m * n) : 52 ≤ (m * n).log2 := (Nat.le_log2 hpos.ne').2 h
    rcases hm.full with hfull | rfl
    · have := hlong (hfull.trans (Nat.le_mul_of_pos_right m hn.pos))
      omega
    rcases hn.full with hfull | rfl
    · have := hlong (hfull.trans (Nat.le_mul_of_pos_left n hm.pos))
      omega
    · omega

/-- A product is finite only if both factors are. -/
theorem isFinite_of_mul {x y : Float} (h : (x * y).isFinite = true) : x.isFinite = true ∧ y.isFinite = true := by
  have hfactors (u v : UnpackedFloat) :
      (UnpackedFloat.mul .binary64 u v).isFinite = true → u.isFinite = true ∧ v.isFinite = true := by
    fun_cases UnpackedFloat.mul .binary64 u v <;> simp_all [UnpackedFloat.isFinite]
  exact hfactors _ _ (isFinite_of_pack h)

/-! ## Quotients -/

theorem signed_div (s t : Sign) (v w : ℝ) : signed (s / t) (v / w) = signed s v / signed t w := by
  cases s <;> cases t
  · exact (neg_div_neg_eq v w).symm
  · exact (neg_div w v).symm
  · exact (div_neg v).symm
  · rfl

/-- The remainder of a division says where the exact quotient lies. -/
theorem describes_div (m : Nat) {n : Nat} (hn : 0 < n) :
    Describes ((m : ℝ) / n) (m / n) (accuracyOfFraction (m % n) n) := by
  have hpos : (0 : ℝ) < n := Nat.cast_pos.2 hn
  have hsplit : (m : ℝ) = n * (m / n : ℕ) + (m % n : ℕ) := by exact_mod_cast (Nat.div_add_mod m n).symm
  have hlt : ((m % n : ℕ) : ℝ) < n := Nat.cast_lt.2 (Nat.mod_lt m hn)
  generalize m / n = q at hsplit ⊢
  generalize m % n = r at hsplit hlt ⊢
  have hquotient : (m : ℝ) / n = q + r / n := by
    rw [hsplit]
    field_simp
  have hone : (r : ℝ) / n < 1 := (div_lt_one hpos).2 hlt
  rw [hquotient]
  unfold accuracyOfFraction
  split_ifs with hzero
  · simp [Describes, hzero]
  · have hr : (0 : ℝ) < r / n := div_pos (Nat.cast_pos.2 (Nat.pos_of_ne_zero hzero)) hpos
    have hcast : ((2 * r : ℕ) : ℝ) = 2 * r := by push_cast; rfl
    rcases lt_trichotomy (2 * r) n with h | h | h
    · have hhalf : (r : ℝ) / n < 1 / 2 := by
        rw [div_lt_iff₀ hpos]
        have := (Nat.cast_lt (α := ℝ)).2 h
        linarith
      rw [compare_lt_iff_lt.2 h]
      constructor <;> linarith
    · have hhalf : (r : ℝ) / n = 1 / 2 := by
        rw [div_eq_iff hpos.ne']
        have := congrArg (Nat.cast (R := ℝ)) h
        linarith
      rw [compare_eq_iff_eq.2 h]
      simp only [Describes]
      linarith
    · have hhalf : 1 / 2 < (r : ℝ) / n := by
        rw [lt_div_iff₀ hpos]
        have := (Nat.cast_lt (α := ℝ)).2 h
        linarith
      rw [compare_gt_iff_gt.2 h]
      constructor <;> linarith

/-- A quotient has about as many bits as the dividend has more than the divisor. -/
theorem le_log2_div {m n k : Nat} (hn : 0 < n) (h : k + (n.log2 + 1) ≤ m.log2) : k ≤ (m / n).log2 := by
  have hle : 2 ^ k ≤ m / n := by
    rw [Nat.le_div_iff_mul_le hn]
    calc 2 ^ k * n
      _ ≤ 2 ^ k * 2 ^ (n.log2 + 1) := Nat.mul_le_mul_left _ Nat.lt_log2_self.le
      _ = 2 ^ (k + (n.log2 + 1)) := (pow_add ..).symm
      _ ≤ 2 ^ m.log2 := Nat.pow_le_pow_right (by omega) h
      _ ≤ m := Nat.log2_self_le (by rintro rfl; simp at h)
  exact (Nat.le_log2 (Nat.two_pow_pos k |>.trans_le hle).ne').2 hle

/-- **A quotient is rounded to the nearest double.** -/
theorem rounded_div {x y : Float} (hx : x.isFinite = true) (hy : y.isFinite = true) (hne : value y ≠ 0) :
    Rounded (value x / value y) (x / y) := by
  have hquotient : x / y = .ofModel (.pack (UnpackedFloat.div .binary64 x.toModel.unpack y.toModel.unpack)) := rfl
  rcases unpack_cases hy with ⟨t, hv⟩ | ⟨t, n, f, hn, hv⟩
  · exact absurd (value_of_zero hv) hne
  rcases unpack_cases hx with ⟨s, hu⟩ | ⟨s, m, e, hm, hu⟩
  · have hzero : x / y = .ofModel (.pack (.zero (s / t))) := by
      rw [hquotient, hu, hv]
      rfl
    rw [value_of_zero hu, zero_div, hzero]
    exact rounded_zero (s / t)
  -- The integer quotient is in units of `2 ^ T`; for that the dividend is shifted first.
  obtain ⟨T, hT⟩ : ∃ T, T = min (e - f) (Format.binary64.targetExponent (totalExponent m e - totalExponent n f)) :=
    ⟨_, rfl⟩
  obtain ⟨k, hk⟩ : ∃ k, k = m <<< (e - f - T).toNat := ⟨_, rfl⟩
  have hparts : x / y = .ofModel (.pack (roundWithAccuracy .binary64 (s / t) (k / n) T (accuracyOfFraction (k % n) n))) := by
    rw [hquotient, hu, hv]
    simp only [UnpackedFloat.div, divCore, ← hT, ← hk]
  have hexact : (m : ℝ) * 2 ^ e / (n * 2 ^ f) / 2 ^ T = k / n := by
    have hshift := shiftLeft_mul_two_zpow m (show T ≤ e - f by omega)
    rw [← hk, zpow_sub₀ two_ne_zero] at hshift
    have hT0 : (2 : ℝ) ^ T ≠ 0 := zpow_ne_zero _ two_ne_zero
    have hn0 : (n : ℝ) ≠ 0 := Nat.cast_ne_zero.2 hn.pos.ne'
    rw [eq_div_iff hn0, ← mul_right_inj' hT0, mul_comm ((2 : ℝ) ^ T) (k : ℝ), hshift]
    field_simp
  rw [value_of_unpack hu, value_of_unpack hv, valueOf_finite, valueOf_finite, ← signed_div, hparts]
  refine rounded_roundWithAccuracy (s / t) (hexact ▸ describes_div k hn.pos) ?_
  rw [binary64_targetExponent, totalExponent, totalExponent] at hT
  rw [binary64_targetExponent, totalExponent]
  -- Above the least exponent the quotient has at least 53 bits, so that rounding never needs bits that were not computed.
  rcases le_or_gt T (-1074) with hleast | hgreater
  · omega
  · have hlog : k.log2 = m.log2 + (e - f - T).toNat := by rw [hk, Nat.shiftLeft_eq, log2_mul_two_pow hm.pos]
    have hlong : 52 ≤ (k / n).log2 := le_log2_div hn.pos (by omega)
    omega

/-! ## Roots -/

/-- The integral root of a number and what remains say where the exact root lies. -/
theorem describes_sqrt (m : Nat) :
    Describes √m m.sqrt (if m - m.sqrt * m.sqrt = 0 then .exact
      else .inexact (if m - m.sqrt * m.sqrt ≤ m.sqrt then .lt else .gt)) := by
  have hle := Nat.sqrt_le m
  have hlt := Nat.lt_succ_sqrt m
  generalize m.sqrt = r at hle hlt ⊢
  obtain ⟨d, rfl⟩ := Nat.exists_eq_add_of_le hle
  rw [Nat.add_sub_cancel_left]
  have hr : (0 : ℝ) ≤ r := Nat.cast_nonneg r
  have hnext : (d : ℝ) < 2 * r + 1 := by
    have hnat : d < 2 * r + 1 := by
      rw [Nat.succ_eq_add_one, Nat.add_mul, Nat.mul_add] at hlt
      omega
    exact_mod_cast hnat
  push_cast
  split_ifs with hzero hsmall
  · rw [hzero, Nat.cast_zero, add_zero]
    exact Real.sqrt_mul_self hr
  · have hpos : (0 : ℝ) < d := Nat.cast_pos.2 (Nat.pos_of_ne_zero hzero)
    have hd : (d : ℝ) ≤ r := Nat.cast_le.2 hsmall
    have hroot : √((r : ℝ) * r + d) < r + 1 / 2 := (Real.sqrt_lt' (by linarith)).2 (by nlinarith)
    exact ⟨(Real.lt_sqrt hr).2 (by nlinarith), by linarith⟩
  · have hd : (r : ℝ) + 1 ≤ d := by exact_mod_cast Nat.lt_of_not_le hsmall
    have hroot : r + 1 / 2 < √((r : ℝ) * r + d) := (Real.lt_sqrt (by linarith)).2 (by nlinarith)
    exact ⟨by linarith, (Real.sqrt_lt' (by linarith)).2 (by nlinarith)⟩

/-- The root of a number with many bits has half as many. -/
theorem le_log2_sqrt {n k : Nat} (h : 2 ^ (2 * k) ≤ n) : k ≤ n.sqrt.log2 := by
  have hle : 2 ^ k ≤ n.sqrt := by
    rw [Nat.le_sqrt, ← pow_add, ← two_mul]
    exact h
  exact (Nat.le_log2 (Nat.two_pow_pos k |>.trans_le hle).ne').2 hle

/-- The root of a mantissa and an exponent is rounded to the nearest double. -/
theorem rounded_rootOfParts {m : Nat} (hm : 0 < m) (e : Int) : Rounded √(m * 2 ^ e) (rootOfParts m e) := by
  -- As for quotients: the integer root is in units of `2 ^ T`, and it has at least 53 bits unless `T` is the least exponent.
  obtain ⟨T, hT⟩ : ∃ T, T = min (e.ediv 2) (Format.binary64.targetExponent ((totalExponent m e + 1).ediv 2)) := ⟨_, rfl⟩
  obtain ⟨n, hn⟩ : ∃ n, n = m <<< (e - 2 * T).toNat := ⟨_, rfl⟩
  have hroot : rootOfParts m e = .ofModel (.pack (roundWithAccuracy .binary64 .positive n.sqrt T
      (if n - n.sqrt * n.sqrt = 0 then .exact else .inexact (if n - n.sqrt * n.sqrt ≤ n.sqrt then .lt else .gt)))) := by
    simp only [rootOfParts, sqrtCore, ← hT, ← hn]
  have hbits : T ≤ e / 2 ∧ T ≤ max ((totalExponent m e + 1) / 2 - 53) (-1074) := hT ▸ ⟨min_le_left _ _, min_le_right _ _⟩
  have hexact : √(m * 2 ^ e) / 2 ^ T = √n := by
    have hsplit := shiftLeft_mul_two_zpow m (show 2 * T ≤ e by omega)
    rw [← hn, two_mul, zpow_add₀ two_ne_zero] at hsplit
    rw [← hsplit, Real.sqrt_mul (Nat.cast_nonneg n), Real.sqrt_mul_self (zpow_nonneg zero_le_two T),
      mul_div_cancel_right₀ _ (zpow_ne_zero _ two_ne_zero)]
  rw [hroot]
  refine rounded_roundWithAccuracy .positive (hexact ▸ describes_sqrt n) ?_
  rw [binary64_targetExponent, totalExponent]
  rcases le_or_gt T (-1074) with hleast | hgreater
  · omega
  · have hlog : n.log2 = m.log2 + (e - 2 * T).toNat := by
      rw [hn, Nat.shiftLeft_eq, log2_mul_two_pow hm]
    rw [totalExponent] at hbits
    have hn0 : n ≠ 0 := by
      rw [hn, Ne, Nat.shiftLeft_eq_zero_iff]
      exact hm.ne'
    have hlong := le_log2_sqrt ((Nat.le_log2 hn0).1 (show 2 * 52 ≤ n.log2 by omega))
    omega

/-- **A square root is rounded to the nearest double.** -/
theorem rounded_sqrt {x : Float} (hx : x.isFinite = true) (hnonneg : 0 ≤ value x) : Rounded √(value x) x.sqrt := by
  have hsqrt : x.sqrt = .ofModel (.pack (UnpackedFloat.sqrt .binary64 x.toModel.unpack)) := rfl
  rcases unpack_cases hx with ⟨s, hu⟩ | ⟨s, m, e, hm, hu⟩
  · rw [value_of_zero hu, Real.sqrt_zero, hsqrt, hu]
    exact rounded_zero s
  · rw [value_of_unpack hu, valueOf_finite] at hnonneg ⊢
    cases s with
    | positive =>
      rw [hsqrt, hu]
      exact rounded_rootOfParts hm.pos e
    | negative =>
      have hpos : (0 : ℝ) < m * 2 ^ e := mul_pos (Nat.cast_pos.2 hm.pos) (zpow_pos two_pos e)
      exact absurd hnonneg (neg_lt_zero.2 hpos).not_ge

/-! ## Hypotenuse -/

/-- **The length of a hypotenuse is rounded to the nearest double.** -/
theorem rounded_hypot {x y : Float} (hx : x.isFinite = true) (hy : y.isFinite = true) :
    Rounded √(value x ^ 2 + value y ^ 2) (hypot x y) := by
  have hself (z : Float) (hz : z.isFinite = true) (h : hypot x y = z.abs) (hv : √(value x ^ 2 + value y ^ 2) = |value z|) :
      Rounded √(value x ^ 2 + value y ^ 2) (hypot x y) := by
    rw [h, hv, ← value_abs]
    exact .self _ (isFinite_abs hz)
  rcases unpack_cases hx with ⟨s, hu⟩ | ⟨s, m, e, hm, hu⟩
  · refine hself y hy ?_ ?_
    · rcases unpack_cases hy with ⟨t, hv⟩ | ⟨t, n, f, hn, hv⟩ <;> rw [hypot, hu, hv]
    · rw [value_of_zero hu, zero_pow two_ne_zero, zero_add, Real.sqrt_sq_eq_abs]
  rcases unpack_cases hy with ⟨t, hv⟩ | ⟨t, n, f, hn, hv⟩
  · refine hself x hx ?_ ?_
    · rw [hypot, hu, hv]
    · rw [value_of_zero hv, zero_pow two_ne_zero, add_zero, Real.sqrt_sq_eq_abs]
  -- On the grid of the smaller exponent both sides are whole, so the sum of their squares is exact.
  obtain ⟨k, hk⟩ : ∃ k, k = min e f := ⟨_, rfl⟩
  have hhypot : hypot x y = rootOfParts (m <<< (e - k).toNat * m <<< (e - k).toNat +
      n <<< (f - k).toNat * n <<< (f - k).toNat) (2 * k) := by
    rw [hypot, hu, hv, hk]
  have hsquares : value x ^ 2 + value y ^ 2 = ((m <<< (e - k).toNat * m <<< (e - k).toNat +
      n <<< (f - k).toNat * n <<< (f - k).toNat : ℕ) : ℝ) * 2 ^ (2 * k) := by
    rw [← sq_abs (value x), ← sq_abs (value y), value_of_unpack hu, value_of_unpack hv, valueOf_finite, valueOf_finite,
      abs_signed, abs_signed, sq_abs, sq_abs, ← shiftLeft_mul_two_zpow m (show k ≤ e by omega),
      ← shiftLeft_mul_two_zpow n (show k ≤ f by omega), two_mul, zpow_add₀ two_ne_zero]
    push_cast
    ring
  have hpos : 0 < m <<< (e - k).toNat := by
    rw [Nat.shiftLeft_eq]
    exact Nat.mul_pos hm.pos (Nat.two_pow_pos _)
  rw [hhypot, hsquares]
  exact rounded_rootOfParts (Nat.add_pos_left (Nat.mul_pos hpos hpos) _) (2 * k)

/-! ## Bounds -/

namespace Within

variable {x y : Float} {j k : Int}

theorem mono (h : Within j x) (hjk : j ≤ k) : Within k x :=
  ⟨h.isFinite, h.abs_le.trans (zpow_le_zpow_right₀ one_le_two hjk)⟩

theorem neg (h : Within k x) : Within k (-x) := by
  refine ⟨?_, ?_⟩
  · rw [isFinite_neg]
    exact h.isFinite
  · rw [value_neg, abs_neg]
    exact h.abs_le

theorem add (hx : Within k x) (hy : Within k y) (hleast : -1022 ≤ k := by decide) (hgreatest : k < 1023 := by decide) :
    Within (k + 1) (x + y) := by
  refine (rounded_add hx.isFinite hy.isFinite).within ?_ (by omega) (by omega)
  calc |value x + value y|
    _ ≤ |value x| + |value y| := abs_add_le _ _
    _ ≤ 2 ^ k + 2 ^ k := add_le_add hx.abs_le hy.abs_le
    _ = 2 ^ (k + 1) := by rw [zpow_add_one₀ two_ne_zero, mul_two]

theorem sub (hx : Within k x) (hy : Within k y) (hleast : -1022 ≤ k := by decide) (hgreatest : k < 1023 := by decide) :
    Within (k + 1) (x - y) := by
  rw [sub_eq_add_neg_float]
  exact hx.add hy.neg hleast hgreatest

theorem mul (hx : Within j x) (hy : Within k y) (hleast : -1022 ≤ j + k := by decide)
    (hgreatest : j + k ≤ 1023 := by decide) : Within (j + k) (x * y) := by
  refine (rounded_mul hx.isFinite hy.isFinite).within ?_ hleast hgreatest
  rw [abs_mul, zpow_add₀ two_ne_zero]
  exact mul_le_mul hx.abs_le hy.abs_le (abs_nonneg _) (zpow_nonneg zero_le_two j)

end Within

end RotationCircuits.Binary64
