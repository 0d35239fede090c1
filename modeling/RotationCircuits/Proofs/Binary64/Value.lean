import RotationCircuits.Proofs.Binary64.Canonical

/-!
# Values of doubles

A finite double stands for a real number, and finite doubles are compared as their values are (`lt_iff_value_lt`). Doubles
of a large magnitude lie far apart (`le_abs_value_sub`).
-/

namespace RotationCircuits.Binary64

open Float.Model (Format UnpackedFloat)
open Float.Model.UnpackedFloat

/-- A real number with a sign in front. -/
def signed : Sign → ℝ → ℝ
  | .positive, v => v
  | .negative, v => -v

@[simp] theorem abs_signed (s : Sign) (v : ℝ) : |signed s v| = |v| := by
  cases s <;> simp [signed]

@[simp] theorem signed_zero (s : Sign) : signed s 0 = 0 := by
  cases s <;> simp [signed]

@[simp] theorem signed_neg (s : Sign) (v : ℝ) : signed (-s) v = -signed s v := by
  cases s with
  | positive => rfl
  | negative => exact (neg_neg v).symm

/-- The real number of an unpacked double; zero if it has none. -/
noncomputable def valueOf : UnpackedFloat → ℝ
  | .finite s m e _ => signed s (m * (2 : ℕ) ^ e)
  | _ => 0

theorem valueOf_finite (s : Sign) {m : Nat} (e : Int) (hpos : 0 < m) :
    valueOf (.finite s m e hpos) = signed s (m * 2 ^ e) := by
  rw [valueOf, Nat.cast_ofNat]

/-- The real number that a finite double stands for. -/
noncomputable def value (x : Float) : ℝ := valueOf x.toModel.unpack

theorem isFinite_eq (x : Float) : x.isFinite = x.toModel.unpack.isFinite := rfl

/-! ## Doubles by their parts -/

/-- A finite double is a zero or has a canonical pair. -/
theorem unpack_cases {x : Float} (hx : x.isFinite = true) :
    (∃ s, x.toModel.unpack = .zero s) ∨ ∃ s m e, ∃ h : Canonical m e, x.toModel.unpack = .finite s m e h.pos := by
  rw [isFinite_eq] at hx
  cases hu : x.toModel.unpack with
  | zero s => exact .inl ⟨s, rfl⟩
  | finite s m e hpos => exact .inr ⟨s, m, e, canonical_of_unpack hu, rfl⟩
  | _ =>
    rw [hu] at hx
    cases hx

theorem value_of_unpack {x : Float} {u : UnpackedFloat} (h : x.toModel.unpack = u) : value x = valueOf u := by
  rw [value, h]

theorem value_of_zero {x : Float} {s : Sign} (h : x.toModel.unpack = .zero s) : value x = 0 := value_of_unpack h

theorem value_zero : value (0.0 : Float) = 0 := value_of_zero (s := .positive) rfl

theorem value_ne_zero_of_unpack {x : Float} {s : Sign} {m : Nat} {e : Int} {hpos : 0 < m}
    (h : x.toModel.unpack = .finite s m e hpos) : value x ≠ 0 := by
  have hpair : (0 : ℝ) < m * 2 ^ e := mul_pos (Nat.cast_pos.2 hpos) (zpow_pos two_pos e)
  rw [value_of_unpack h, valueOf_finite, ← abs_pos, abs_signed, abs_pos]
  exact hpair.ne'

/-- The double with a canonical pair. -/
def ofCanonical (s : Sign) {m : Nat} {e : Int} (h : Canonical m e) : Float := .ofModel (.pack (.finite s m e h.pos))

theorem isFinite_ofCanonical (s : Sign) {m : Nat} {e : Int} (h : Canonical m e) : (ofCanonical s h).isFinite = true := by
  change (Float.Model.pack (.finite s m e h.pos)).unpack.isFinite = true
  rw [unpack_pack s h]
  rfl

theorem value_ofCanonical (s : Sign) {m : Nat} {e : Int} (h : Canonical m e) :
    value (ofCanonical s h) = signed s (m * 2 ^ e) :=
  (value_of_unpack (unpack_pack s h)).trans (valueOf_finite s e h.pos)

theorem unpack_pack_zero (s : Sign) : (Float.Model.pack (.zero s)).unpack = .zero s := by
  cases s <;> rfl

theorem isFinite_pack_zero (s : Sign) : (Float.ofModel (.pack (.zero s))).isFinite = true := by
  cases s <;> rfl

theorem value_pack_zero (s : Sign) : value (.ofModel (.pack (.zero s))) = 0 := value_of_zero (unpack_pack_zero s)

/-- A pair with too large an exponent becomes infinite. -/
theorem isFinite_pack_of_large (s : Sign) {m : Nat} {e : Int} (hpos : 0 < m) (he : 971 < e) :
    (Float.ofModel (.pack (.finite s m e hpos))).isFinite = false := by
  have hinf : Float.Model.pack (.finite s m e hpos) = Float.Model.pack (.infinity s) := by
    have hfield : 2 ^ Format.binary64.exponentBits ≤ (e + (Format.binary64.exponentBias : Int) +
        (Format.binary64.mantissaBitsWithoutImplicit : Int)).toNat + 1 := by
      change 2048 ≤ (e + 1023 + 52).toNat + 1
      omega
    simp only [Float.Model.pack, UnpackedFloat.pack, if_pos hfield]
  rw [hinf]
  cases s <;> decide

/-! ## Negation and magnitude -/

theorem unpack_neg (x : Float) : (-x).toModel.unpack = x.toModel.unpack.neg := by
  change (Float.Model.pack x.toModel.unpack.neg).unpack = x.toModel.unpack.neg
  cases hu : x.toModel.unpack with
  | finite s m e hpos => exact unpack_pack (-s) (canonical_of_unpack hu)
  | zero s => exact unpack_pack_zero (-s)
  | infinity s => cases s <;> rfl
  | notANumber => rfl

@[simp] theorem isFinite_neg (x : Float) : (-x).isFinite = x.isFinite := by
  rw [isFinite_eq, isFinite_eq, unpack_neg]
  cases x.toModel.unpack <;> rfl

theorem isNaN_neg (x : Float) : (-x).isNaN = x.isNaN := by
  change (-x).toModel.unpack.isNaN = x.toModel.unpack.isNaN
  rw [unpack_neg]
  cases x.toModel.unpack <;> rfl

@[simp] theorem value_neg (x : Float) : value (-x) = -value x := by
  rw [value, value, unpack_neg]
  cases x.toModel.unpack with
  | finite s m e hpos => exact signed_neg s _
  | _ => exact neg_zero.symm

theorem unpack_abs (x : Float) : x.abs.toModel.unpack = x.toModel.unpack.abs := by
  change (Float.Model.pack x.toModel.unpack.abs).unpack = x.toModel.unpack.abs
  cases hu : x.toModel.unpack with
  | finite s m e hpos => exact unpack_pack .positive (canonical_of_unpack hu)
  | zero s => exact unpack_pack_zero .positive
  | infinity s => cases s <;> rfl
  | notANumber => rfl

@[simp] theorem value_abs (x : Float) : value x.abs = |value x| := by
  rw [value, value, unpack_abs]
  cases x.toModel.unpack with
  | finite s m e hpos =>
    have hpair : (0 : ℝ) ≤ m * 2 ^ e := by positivity
    simp only [UnpackedFloat.abs, valueOf_finite, abs_signed, abs_of_nonneg hpair]
    rfl
  | _ => exact abs_zero.symm

/-! ## Order -/

theorem canonical_lt_of_exponent_lt {m n : Nat} {e f : Int} (hm : Canonical m e) (hn : Canonical n f) (h : e < f) :
    (m : ℝ) * 2 ^ e < n * 2 ^ f := by
  have hleast := hm.least
  have hfull : 2 ^ 52 ≤ n := by
    rcases hn.full with hfull | hf
    · exact hfull
    · omega
  have hm53 : (m : ℝ) < 2 ^ (53 : Int) := by exact_mod_cast hm.lt
  have hn52 : (2 : ℝ) ^ (52 : Int) ≤ n := by exact_mod_cast hfull
  calc (m : ℝ) * 2 ^ e
    _ < 2 ^ (53 : Int) * 2 ^ e := by gcongr
    _ = 2 ^ (53 + e) := (zpow_add₀ two_ne_zero _ _).symm
    _ ≤ 2 ^ (52 + f) := zpow_le_zpow_right₀ one_le_two (by omega)
    _ = 2 ^ (52 : Int) * 2 ^ f := zpow_add₀ two_ne_zero _ _
    _ ≤ n * 2 ^ f := by gcongr

/-- Canonical pairs are ordered by exponent first and mantissa second. -/
theorem compare_canonical {m n : Nat} {e f : Int} (hm : Canonical m e) (hn : Canonical n f) :
    (compare e f).then (compare m n) = compare ((m : ℝ) * 2 ^ e) (n * 2 ^ f) := by
  have hpos : (0 : ℝ) < 2 ^ f := zpow_pos two_pos f
  rcases lt_trichotomy e f with h | rfl | h
  · rw [compare_lt_iff_lt.2 h, compare_lt_iff_lt.2 (canonical_lt_of_exponent_lt hm hn h)]
    rfl
  · rw [compare_eq_iff_eq.2 rfl, Ordering.eq_then]
    rcases lt_trichotomy m n with h | rfl | h
    · have hlt : (m : ℝ) * 2 ^ e < n * 2 ^ e := (mul_lt_mul_iff_left₀ hpos).2 (Nat.cast_lt.2 h)
      rw [compare_lt_iff_lt.2 h, compare_lt_iff_lt.2 hlt]
    · rw [compare_eq_iff_eq.2 rfl, compare_eq_iff_eq.2 rfl]
    · have hlt : (n : ℝ) * 2 ^ e < m * 2 ^ e := (mul_lt_mul_iff_left₀ hpos).2 (Nat.cast_lt.2 h)
      rw [compare_gt_iff_gt.2 h, compare_gt_iff_gt.2 hlt]
  · rw [compare_gt_iff_gt.2 h, compare_gt_iff_gt.2 (canonical_lt_of_exponent_lt hn hm h)]
    rfl

theorem compare_neg_neg (v w : ℝ) : compare (-v) (-w) = (compare v w).swap := by
  rcases lt_trichotomy v w with h | rfl | h
  · rw [compare_gt_iff_gt.2 (neg_lt_neg h), compare_lt_iff_lt.2 h]
    rfl
  · rw [compare_eq_iff_eq.2 rfl, compare_eq_iff_eq.2 rfl]
    rfl
  · rw [compare_lt_iff_lt.2 (neg_lt_neg h), compare_gt_iff_gt.2 h]
    rfl

/-- The comparison of finite doubles is that of their values. -/
theorem compare_unpack {x y : Float} (hx : x.isFinite = true) (hy : y.isFinite = true) :
    x.toModel.unpack.compare y.toModel.unpack = some (compare (value x) (value y)) := by
  have hpair {m : Nat} {e : Int} (h : Canonical m e) : (0 : ℝ) < m * 2 ^ e :=
    mul_pos (Nat.cast_pos.2 h.pos) (zpow_pos two_pos e)
  rw [value, value]
  rcases unpack_cases hx with ⟨s, hu⟩ | ⟨s, m, e, hm, hu⟩ <;> rcases unpack_cases hy with ⟨t, hv⟩ | ⟨t, n, f, hn, hv⟩ <;>
    rw [hu, hv]
  · exact congrArg some (compare_eq_iff_eq.2 rfl).symm
  · rw [valueOf_finite]
    cases t with
    | positive => exact congrArg some (compare_lt_iff_lt.2 (hpair hn)).symm
    | negative => exact congrArg some (compare_gt_iff_gt.2 (neg_lt_zero.2 (hpair hn))).symm
  · rw [valueOf_finite]
    cases s with
    | positive => exact congrArg some (compare_gt_iff_gt.2 (hpair hm)).symm
    | negative => exact congrArg some (compare_lt_iff_lt.2 (neg_lt_zero.2 (hpair hm))).symm
  · rw [valueOf_finite, valueOf_finite]
    cases s <;> cases t
    · refine congrArg some ?_
      rw [compare_canonical hm hn]
      exact (compare_neg_neg _ _).symm
    · exact congrArg some (compare_lt_iff_lt.2 ((neg_lt_zero.2 (hpair hm)).trans (hpair hn))).symm
    · exact congrArg some (compare_gt_iff_gt.2 ((neg_lt_zero.2 (hpair hn)).trans (hpair hm))).symm
    · exact congrArg some (compare_canonical hm hn)

theorem lt_iff_compare {x y : Float} : x < y ↔ x.toModel.unpack.compare y.toModel.unpack = some .lt := by
  change decide (x.toModel < y.toModel) = true ↔ _
  rw [decide_eq_true_iff]
  change x.toModel.unpack.lt y.toModel.unpack = true ↔ _
  simp [UnpackedFloat.lt]

theorem lt_iff_value_lt {x y : Float} (hx : x.isFinite = true) (hy : y.isFinite = true) :
    x < y ↔ value x < value y := by
  rw [lt_iff_compare, compare_unpack hx hy, Option.some_inj, compare_lt_iff_lt]

/-- A double other than zero is determined by its value. -/
theorem eq_of_value_eq {x y : Float} (hx : x.isFinite = true) (hy : y.isFinite = true) (h : value x = value y)
    (hne : value x ≠ 0) : x = y := by
  rcases unpack_cases hx with ⟨s, hu⟩ | ⟨s, m, e, hm, hu⟩
  · exact absurd (value_of_zero hu) hne
  rcases unpack_cases hy with ⟨t, hv⟩ | ⟨t, n, f, hn, hv⟩
  · exact absurd (h.trans (value_of_zero hv)) hne
  have hcmp := compare_unpack hx hy
  rw [hu, hv, compare_eq_iff_eq.2 h] at hcmp
  have hparts : s = t ∧ (compare e f).then (compare m n) = .eq := by
    cases s <;> cases t <;> simp_all [UnpackedFloat.compare]
  obtain ⟨rfl, heq⟩ := hparts
  rw [Ordering.then_eq_eq, compare_eq_iff_eq, compare_eq_iff_eq] at heq
  obtain ⟨rfl, rfl⟩ := heq
  rw [← pack_unpack x, ← pack_unpack y, hu, hv]

/-! ## Spacing -/

theorem abs_value_lt {x : Float} {s : Sign} {m : Nat} {e : Int} {hpos : 0 < m}
    (hu : x.toModel.unpack = .finite s m e hpos) : |value x| < 2 ^ (53 + e) := by
  have hm : (m : ℝ) < 2 ^ (53 : Int) := by exact_mod_cast (canonical_of_unpack hu).lt
  have hnonneg : (0 : ℝ) ≤ m * 2 ^ e := by positivity
  rw [value_of_unpack hu, valueOf_finite, abs_signed, abs_of_nonneg hnonneg, zpow_add₀ two_ne_zero]
  gcongr

/-- A mantissa is shifted as the exponent is lowered. -/
theorem shiftLeft_mul_two_zpow (m : Nat) {e f : Int} (h : f ≤ e) :
    ((m <<< (e - f).toNat : ℕ) : ℝ) * 2 ^ f = m * 2 ^ e := by
  rw [Nat.shiftLeft_eq]
  push_cast
  rw [mul_assoc, ← zpow_natCast, Int.toNat_of_nonneg (by omega), ← zpow_add₀ two_ne_zero, sub_add_cancel]

/-- Every double with a large enough exponent is a multiple of a power of two. -/
theorem exists_value_eq_mul {x : Float} {s : Sign} {m : Nat} {e k : Int} {hpos : 0 < m}
    (hu : x.toModel.unpack = .finite s m e hpos) (hk : k ≤ e) : ∃ j : ℤ, value x = j * 2 ^ k := by
  rw [value_of_unpack hu, valueOf_finite, ← shiftLeft_mul_two_zpow m hk]
  cases s with
  | positive => exact ⟨(m <<< (e - k).toNat : ℕ), by rw [signed, Int.cast_natCast]⟩
  | negative => exact ⟨-(m <<< (e - k).toNat : ℕ), by rw [signed, Int.cast_neg, Int.cast_natCast, neg_mul]⟩

/-- Doubles of magnitude at least `2 ^ (k + 53)` are `2 ^ k` or more away from all others. -/
theorem le_abs_value_sub {x y : Float} {k : Int} (hx : x.isFinite = true) (hy : y.isFinite = true)
    (hlarge : 2 ^ (k + 53) ≤ |value x|) (hne : value y ≠ value x) : 2 ^ k ≤ |value y - value x| := by
  have hpow : (0 : ℝ) < 2 ^ k := zpow_pos two_pos k
  have hsmall (h : |value y| ≤ 2 ^ (k + 52)) : 2 ^ k ≤ |value y - value x| := by
    have hdouble : (2 : ℝ) ^ (k + 53) = 2 ^ (k + 52) + 2 ^ (k + 52) := by
      rw [show k + 53 = k + 52 + 1 by ring, zpow_add_one₀ two_ne_zero]
      ring
    calc (2 : ℝ) ^ k
      _ ≤ 2 ^ (k + 52) := zpow_le_zpow_right₀ one_le_two (by omega)
      _ ≤ |value x| - |value y| := by linarith
      _ ≤ |value x - value y| := abs_sub_abs_le_abs_sub _ _
      _ = |value y - value x| := abs_sub_comm _ _
  rcases unpack_cases hx with ⟨s, hu⟩ | ⟨s, m, e, hm, hu⟩
  · rw [value_of_zero hu, abs_zero] at hlarge
    exact absurd (zpow_pos two_pos _) hlarge.not_gt
  have hke : k < e := by
    have := (zpow_lt_zpow_iff_right₀ one_lt_two).1 (hlarge.trans_lt (abs_value_lt hu))
    omega
  rcases unpack_cases hy with ⟨t, hv⟩ | ⟨t, n, f, hn, hv⟩
  · refine hsmall ?_
    rw [value_of_zero hv, abs_zero]
    positivity
  rcases lt_or_ge f k with hf | hf
  · exact hsmall ((abs_value_lt hv).le.trans (zpow_le_zpow_right₀ one_le_two (by omega)))
  · obtain ⟨i, hi⟩ := exists_value_eq_mul hu hke.le
    obtain ⟨j, hj⟩ := exists_value_eq_mul hv hf
    have hij : j - i ≠ 0 := by
      rw [hi, hj] at hne
      exact fun h => hne (by rw [sub_eq_zero.1 h])
    have hone : (1 : ℝ) ≤ |((j - i : ℤ) : ℝ)| := by exact_mod_cast Int.one_le_abs hij
    rw [hi, hj, ← sub_mul, abs_mul, abs_of_pos hpow, ← Int.cast_sub]
    exact le_mul_of_one_le_left hpow.le hone

end RotationCircuits.Binary64
