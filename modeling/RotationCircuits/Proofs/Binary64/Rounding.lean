import RotationCircuits.Proofs.Binary64.Value

/-!
# Rounding to the nearest double

An operation on doubles computes the leading bits of an exact result, with a note on what was cut off (`Describes`), and
rounds them. No double is closer to the exact result than the one that is made (`rounded_roundWithAccuracy`), and it is
finite if the exact result is below the point halfway between the largest double and the next power of two. All bounds on
results follow from that: rounding never passes a double (`Rounded.value_le`, `Rounded.le_value`).
-/

namespace RotationCircuits.Binary64

open Float.Model (Format UnpackedFloat totalExponent)
open Float.Model.UnpackedFloat

/-! ## The specification -/

/-- Exact results below this are rounded to finite doubles. -/
noncomputable def limit : ℝ := (2 : ℕ) ^ 1024 - (2 : ℕ) ^ 970

theorem limit_eq : limit = 2 ^ 1024 - 2 ^ 970 := by
  rw [limit, Nat.cast_ofNat]

/-- A double made from an exact result: it is finite unless the result is too large, and then no double is closer. -/
structure Rounded (v : ℝ) (x : Float) : Prop where
  isFinite : |v| < limit → x.isFinite = true
  nearest : x.isFinite = true → ∀ y : Float, y.isFinite = true → |value x - v| ≤ |value y - v|

namespace Rounded

variable {v : ℝ} {x y : Float}

theorem self (x : Float) (hx : x.isFinite = true) : Rounded (value x) x :=
  ⟨fun _ => hx, fun _ _ _ => by simp⟩

/-- Rounding up does not pass a double. -/
theorem value_le (h : Rounded v x) (hx : x.isFinite = true) (hy : y.isFinite = true) (hv : v ≤ value y) :
    value x ≤ value y := by
  by_contra hlt
  have hnear := h.nearest hx y hy
  rw [abs_of_nonneg (by linarith), abs_of_nonneg (by linarith)] at hnear
  linarith

/-- Rounding down does not pass a double. -/
theorem le_value (h : Rounded v x) (hx : x.isFinite = true) (hy : y.isFinite = true) (hv : value y ≤ v) :
    value y ≤ value x := by
  by_contra hlt
  have hnear := h.nearest hx y hy
  rw [abs_of_nonpos (by linarith), abs_of_nonpos (by linarith)] at hnear
  linarith

theorem abs_value_le (h : Rounded v x) (hx : x.isFinite = true) (hy : y.isFinite = true) (hv : |v| ≤ |value y|) :
    |value x| ≤ |value y| := by
  have hneg : (-y).isFinite = true := by rwa [isFinite_neg]
  obtain ⟨hlower, hupper⟩ := abs_le.1 hv
  rcases abs_choice (value y) with habs | habs <;> rw [habs] at hlower hupper ⊢
  · rw [← value_neg] at hlower
    have hle := h.le_value hx hneg hlower
    rw [value_neg] at hle
    exact abs_le.2 ⟨hle, h.value_le hx hy hupper⟩
  · rw [neg_neg] at hlower
    rw [← value_neg] at hupper ⊢
    have hle := h.le_value hx hy hlower
    refine abs_le.2 ⟨?_, h.value_le hx hneg hupper⟩
    rwa [value_neg, neg_neg]

end Rounded

/-! ## Cutting off bits -/

/-- What an accuracy says about a number with a given integral part. -/
def Describes (x : ℝ) (m : Nat) : Accuracy → Prop
  | .exact => x = m
  | .inexact .lt => m < x ∧ x - m < m + 1 - x
  | .inexact .eq => x - m = m + 1 - x
  | .inexact .gt => m + 1 - x < x - m ∧ x < m + 1

theorem Describes.bounds {x : ℝ} {m : Nat} {a : Accuracy} (h : Describes x m a) : m ≤ x ∧ x < m + 1 := by
  rcases a with _ | _ | _ | _ <;> simp only [Describes] at h <;> constructor <;> linarith

theorem Describes.extended {x : ℝ} {m : Nat} {a : Accuracy} (h : Describes x m a) :
    Describes x (ExtendedMantissa.ofMantissaAndAccuracy m a).mantissa
      (ExtendedMantissa.ofMantissaAndAccuracy m a).accuracy := by
  rcases a with _ | _ | _ | _ <;> exact h

/-- Dropping a bit halves the number. -/
theorem Describes.shiftRightOne {x : ℝ} {em : ExtendedMantissa} (h : Describes x em.mantissa em.accuracy) :
    Describes (x / 2) em.shiftRightOne.mantissa em.shiftRightOne.accuracy := by
  obtain ⟨m, r, t⟩ := em
  have hsplit : (m : ℝ) = 2 * (m / 2 : ℕ) + (m % 2 : ℕ) := by exact_mod_cast (Nat.div_add_mod m 2).symm
  have hodd : ((1 : ℕ) != 0) = true := rfl
  have heven : ((0 : ℕ) != 0) = false := rfl
  rcases Nat.mod_two_eq_zero_or_one m with hm | hm <;> cases r <;> cases t <;>
    simp only [ExtendedMantissa.accuracy, ExtendedMantissa.shiftRightOne, Describes, hsplit, hm, hodd, heven, Bool.or_true,
      Bool.or_false, Nat.cast_zero, Nat.cast_one] at h ⊢ <;>
    grind

theorem Describes.shiftRight {x : ℝ} {em : ExtendedMantissa} (h : Describes x em.mantissa em.accuracy) (k : Nat) :
    Describes (x / 2 ^ k) (em >>> k).mantissa (em >>> k).accuracy := by
  induction k with
  | zero =>
    rw [pow_zero, div_one]
    exact h
  | succ k ih =>
    rw [pow_succ, ← div_div]
    exact ih.shiftRightOne

/-- No natural number is closer than the rounded mantissa. -/
theorem Describes.nearest {x : ℝ} {m : Nat} {a : Accuracy} (h : Describes x m a) (k : Nat) :
    |(a.roundToNearestEven m : ℝ) - x| ≤ |(k : ℝ) - x| := by
  have hk : (k : ℝ) ≤ m ∨ (m : ℝ) + 1 ≤ k := by
    rcases Nat.lt_or_ge m k with hlt | hle
    · exact .inr (by exact_mod_cast hlt)
    · exact .inl (by exact_mod_cast hle)
  have hbounds := h.bounds
  -- The distance of `x` to the nearer one of `m` and `m + 1`, both for `k` and for the rounded mantissa.
  have hmin : min (x - m) (m + 1 - x) ≤ |(k : ℝ) - x| := by
    rcases hk with hk | hk
    · rw [abs_of_nonpos (by linarith)]
      exact (min_le_left _ _).trans (by linarith)
    · rw [abs_of_nonneg (by linarith)]
      exact (min_le_right _ _).trans (by linarith)
  refine le_trans ?_ hmin
  rcases a with _ | _ | _ | _ <;> simp only [Describes] at h <;> simp only [Accuracy.roundToNearestEven]
  · simp [h]
  · rw [abs_of_nonpos (by linarith), le_min_iff]
    constructor <;> linarith
  · rcases Nat.mod_two_eq_zero_or_one m with hm | hm
    · rw [hm, Nat.add_zero, abs_of_nonpos (by linarith), le_min_iff]
      constructor <;> linarith
    · rw [hm, Nat.cast_add, Nat.cast_one, abs_of_nonneg (by linarith), le_min_iff]
      constructor <;> linarith
  · rw [Nat.cast_add, Nat.cast_one, abs_of_nonneg (by linarith), le_min_iff]
    constructor <;> linarith

theorem roundToNearestEven_le (m : Nat) (a : Accuracy) : a.roundToNearestEven m ≤ m + 1 := by
  rcases a with _ | _ | _ | _ <;> simp only [Accuracy.roundToNearestEven] <;> omega

/-! ## Bits that are kept -/

/-- The multiple of `2 ^ e` that a positive number is rounded to. Numbers up to `2 ^ (e + 53)` have a mantissa of at most 53
bits with that exponent, and only with the least exponent it has less. -/
structure OnGrid (v : ℝ) (n : Nat) (e : Int) : Prop where
  nonneg : 0 ≤ v
  least : -1074 ≤ e
  le : n ≤ 2 ^ 53
  lt : v < 2 ^ (e + 53)
  full : e = -1074 ∨ 2 ^ (e + 52) ≤ v
  nearest : ∀ k : Nat, |(n : ℝ) * 2 ^ e - v| ≤ |(k : ℝ) * 2 ^ e - v|

theorem binary64_targetExponent (t : Int) : Format.binary64.targetExponent t = max (t - 53) (-1074) := rfl

/-- The position of the leading bit of a number is that of its integral part. -/
theorem Describes.lt_two_zpow {v : ℝ} {m : Nat} {e : Int} {a : Accuracy} (hv : Describes (v / 2 ^ e) m a) :
    v < 2 ^ totalExponent m e := by
  have hpow : (0 : ℝ) < 2 ^ e := zpow_pos two_pos e
  have hm : (m : ℝ) + 1 ≤ 2 ^ ((m.log2 : Int) + 1) := by exact_mod_cast Nat.lt_log2_self (n := m)
  have hlt : v / 2 ^ e < 2 ^ ((m.log2 : Int) + 1) := hv.bounds.2.trans_le hm
  rw [div_lt_iff₀ hpow, ← zpow_add₀ two_ne_zero] at hlt
  exact hlt

theorem Describes.two_zpow_le {v : ℝ} {m : Nat} {e : Int} {a : Accuracy} (hv : Describes (v / 2 ^ e) m a) (hm : m ≠ 0) :
    2 ^ (m.log2 + e) ≤ v := by
  have hpow : (0 : ℝ) < 2 ^ e := zpow_pos two_pos e
  have hlog : (2 : ℝ) ^ (m.log2 : Int) ≤ m := by exact_mod_cast Nat.log2_self_le hm
  have hle := hlog.trans hv.bounds.1
  rwa [le_div_iff₀ hpow, ← zpow_add₀ two_ne_zero] at hle

/-- Rounding with enough bits picks a multiple of a power of two. -/
theorem onGrid_shiftToTargetExponent {v : ℝ} {m : Nat} {e : Int} {a : Accuracy} (hv : Describes (v / 2 ^ e) m a)
    (he : e ≤ Format.binary64.targetExponent (totalExponent m e)) :
    OnGrid v (shiftToTargetExponent .binary64 m e a).1.roundedMantissa (shiftToTargetExponent .binary64 m e a).2 := by
  obtain ⟨E, hE⟩ : ∃ E, E = Format.binary64.targetExponent (totalExponent m e) := ⟨_, rfl⟩
  obtain ⟨k, rfl⟩ : ∃ k : ℕ, E = e + k := ⟨(E - e).toNat, by omega⟩
  obtain ⟨em, hem⟩ : ∃ em, em = ExtendedMantissa.ofMantissaAndAccuracy m a >>> k := ⟨_, rfl⟩
  have hshift : shiftToTargetExponent .binary64 m e a = (em, e + k) := by
    have hk : (e + k - e).toNat = k := by omega
    simp only [shiftToTargetExponent, shiftToExponent, ← hE, hk, hem]
  rw [hshift]
  have hpow : (0 : ℝ) < 2 ^ (e + k) := zpow_pos two_pos _
  have hdescribed : Describes (v / 2 ^ (e + k)) em.mantissa em.accuracy := by
    rw [zpow_add₀ two_ne_zero, zpow_natCast, ← div_div, hem]
    exact hv.extended.shiftRight k
  rw [binary64_targetExponent, totalExponent] at hE
  have hlt : v < 2 ^ (e + k + 53) :=
    hv.lt_two_zpow.trans_le (zpow_le_zpow_right₀ one_le_two (by rw [totalExponent]; omega))
  have hnonneg : 0 ≤ v := by
    have hquotient : 0 ≤ v / 2 ^ (e + k) := (Nat.cast_nonneg _).trans hdescribed.bounds.1
    rwa [le_div_iff₀ hpow, zero_mul] at hquotient
  refine ⟨hnonneg, by omega, ?_, hlt, ?_, fun j => ?_⟩
  · have hmantissa : em.mantissa < 2 ^ 53 := by
      have hreal : (em.mantissa : ℝ) < 2 ^ (53 : ℤ) := by
        refine hdescribed.bounds.1.trans_lt ?_
        rwa [div_lt_iff₀ hpow, ← zpow_add₀ two_ne_zero, add_comm]
      exact_mod_cast hreal
    exact (roundToNearestEven_le _ _).trans hmantissa
  · rcases eq_or_ne m 0 with rfl | hm
    · rw [Nat.log2_zero] at hE
      omega
    · rcases eq_or_ne (e + k) (-1074) with hleast | hleast
      · exact .inl hleast
      · refine .inr ((zpow_le_zpow_right₀ one_le_two ?_).trans (hv.two_zpow_le hm))
        omega
  · have hscale (i : ℕ) : |(i : ℝ) * 2 ^ (e + k) - v| = |(i : ℝ) - v / 2 ^ (e + k)| * 2 ^ (e + k) := by
      rw [← abs_of_pos hpow, ← abs_mul, abs_of_pos hpow, sub_mul, div_mul_cancel₀ _ hpow.ne']
    rw [hscale, hscale]
    exact mul_le_mul_of_nonneg_right (hdescribed.nearest j) hpow.le

/-! ## The nearest double -/

namespace OnGrid

variable {v : ℝ} {n : Nat} {e : Int}

/-- No double is closer than the nearest multiple: those with smaller exponents lie below the number's leading bit. -/
theorem abs_sub_le (h : OnGrid v n e) (s : Sign) {y : Float} (hy : y.isFinite = true) :
    |(n : ℝ) * 2 ^ e - v| ≤ |signed s (value y) - v| := by
  rcases le_or_gt (signed s (value y)) 0 with hneg | hpos
  · have hzero := h.nearest 0
    have hv := h.nonneg
    rw [Nat.cast_zero, zero_mul, zero_sub, abs_neg, abs_of_nonneg hv] at hzero
    rw [abs_of_nonpos (by linarith : signed s (value y) - v ≤ 0)]
    linarith
  rcases unpack_cases hy with ⟨t, hu⟩ | ⟨t, m, f, hm, hu⟩
  · rw [value_of_zero hu, signed_zero] at hpos
    exact absurd hpos (lt_irrefl 0)
  have hvalue : signed s (value y) = m * 2 ^ f := by
    have hpair : (0 : ℝ) ≤ m * 2 ^ f := by positivity
    rw [← abs_of_pos hpos, abs_signed, value_of_unpack hu, valueOf_finite, abs_signed, abs_of_nonneg hpair]
  rw [hvalue]
  rcases lt_or_ge f e with hf | hf
  · have hleast := hm.least
    have hfull : 2 ^ (e + 52) ≤ v := by
      rcases h.full with rfl | hfull
      · omega
      · exact hfull
    have hbelow : (m : ℝ) * 2 ^ f ≤ 2 ^ (e + 52) := by
      have hlt := (abs_value_lt hu).le
      rw [← abs_signed s, hvalue, abs_of_nonneg (by positivity)] at hlt
      exact hlt.trans (zpow_le_zpow_right₀ one_le_two (by omega))
    have hlead := h.nearest (2 ^ 52)
    have hpow : ((2 ^ 52 : ℕ) : ℝ) * 2 ^ e = 2 ^ (e + 52) := by
      rw [add_comm, zpow_add₀ two_ne_zero]
      norm_num
    rw [hpow, abs_of_nonpos (by linarith : (2 : ℝ) ^ (e + 52) - v ≤ 0)] at hlead
    rw [abs_of_nonpos (by linarith : (m : ℝ) * 2 ^ f - v ≤ 0)]
    linarith
  · rw [← shiftLeft_mul_two_zpow m hf]
    exact h.nearest _

theorem rounded (h : OnGrid v n e) (s : Sign) {x : Float} (hx : x.isFinite = true)
    (hvalue : value x = signed s (n * 2 ^ e)) : Rounded (signed s v) x := by
  refine ⟨fun _ => hx, fun _ y hy => ?_⟩
  have hle := h.abs_sub_le s hy
  rw [hvalue]
  cases s with
  | positive => exact hle
  | negative =>
    simp only [signed] at hle ⊢
    rw [← abs_neg, ← abs_neg (value y - -v)]
    convert hle using 2 <;> ring

/-- Above the least exponent the mantissa has all its bits. -/
theorem le_mantissa (h : OnGrid v n e) : 2 ^ 52 ≤ n ∨ e = -1074 := by
  rcases h.full with hleast | hfull
  · exact .inr hleast
  refine .inl (not_lt.1 fun hlt => ?_)
  have hpow : (0 : ℝ) < 2 ^ e := zpow_pos two_pos e
  have hlead : ((2 ^ 52 : ℕ) : ℝ) * 2 ^ e = 2 ^ (e + 52) := by
    rw [add_comm, zpow_add₀ two_ne_zero]
    norm_num
  have hn : (n : ℝ) * 2 ^ e < ((2 ^ 52 : ℕ) : ℝ) * 2 ^ e := (mul_lt_mul_iff_left₀ hpow).2 (Nat.cast_lt.2 hlt)
  have hnear := h.nearest (2 ^ 52)
  rw [abs_of_nonpos (by linarith), abs_of_nonpos (by linarith)] at hnear
  linarith

theorem limit_le (h : OnGrid v n e) (he : 971 < e) : limit ≤ v := by
  have hfull : 2 ^ (e + 52) ≤ v := by
    rcases h.full with rfl | hfull
    · omega
    · exact hfull
  calc limit
    _ ≤ 2 ^ (1024 : Int) := by
      rw [limit_eq]
      norm_num
    _ ≤ 2 ^ (e + 52) := zpow_le_zpow_right₀ one_le_two (by omega)
    _ ≤ v := hfull

/-- A number that is rounded up to a power of two lies above the middle of the last step to it. -/
theorem limit_le_of_carry (h : OnGrid v (2 ^ 53) e) (he : 971 < e + 1) : limit ≤ v := by
  have hpow : (2 : ℝ) ^ (971 : Int) ≤ 2 ^ e := zpow_le_zpow_right₀ one_le_two (by omega)
  have hlt := h.lt
  have hnear := h.nearest (2 ^ 53 - 1)
  have hlast : ((2 ^ 53 - 1 : ℕ) : ℝ) = ((2 ^ 53 : ℕ) : ℝ) - 1 := by norm_num
  rw [add_comm, zpow_add₀ two_ne_zero, show (2 : ℝ) ^ (53 : Int) = ((2 ^ 53 : ℕ) : ℝ) by norm_num] at hlt
  rw [hlast, sub_mul, one_mul, abs_of_nonneg (by linarith)] at hnear
  have hpos : (0 : ℝ) < 2 ^ e := zpow_pos two_pos e
  have hmiddle : ((2 ^ 53 : ℕ) : ℝ) * 2 ^ e - 2 ^ e / 2 ≤ v := by
    generalize ((2 ^ 53 : ℕ) : ℝ) * 2 ^ e = top at hnear ⊢
    generalize (2 : ℝ) ^ e = step at hnear hpos ⊢
    rcases le_total (top - step - v) 0 with hside | hside
    · rw [abs_of_nonpos hside] at hnear
      linarith only [hnear]
    · rw [abs_of_nonneg hside] at hnear
      linarith only [hnear, hpos]
  have hlimit : limit = (((2 ^ 53 : ℕ) : ℝ) - 1 / 2) * 2 ^ (971 : Int) := by
    have hhalf : (2 : ℝ) ^ (971 : Int) = 2 * 2 ^ 970 := by
      rw [show (971 : Int) = 1 + 970 by rfl, zpow_add₀ two_ne_zero, zpow_one]
      rfl
    have hwhole : (2 : ℝ) ^ 1024 = 2 ^ 54 * 2 ^ 970 := pow_add 2 54 970
    rw [limit_eq, hhalf, hwhole]
    push_cast
    generalize (2 : ℝ) ^ 970 = g
    ring
  calc limit
    _ = (((2 ^ 53 : ℕ) : ℝ) - 1 / 2) * 2 ^ (971 : Int) := hlimit
    _ ≤ (((2 ^ 53 : ℕ) : ℝ) - 1 / 2) * 2 ^ e := mul_le_mul_of_nonneg_left hpow (by norm_num)
    _ = ((2 ^ 53 : ℕ) : ℝ) * 2 ^ e - 2 ^ e / 2 := by ring
    _ ≤ v := hmiddle

/-- The multiple as a double, written as a pair that fits the format. -/
theorem rounded_pack (h : OnGrid v n e) (s : Sign) {m : Nat} {f : Int} (hpos : 0 < m) (hlt : m < 2 ^ 53)
    (hleast : -1074 ≤ f) (hfull : 2 ^ 52 ≤ m ∨ f = -1074) (hvalue : (n : ℝ) * 2 ^ e = m * 2 ^ f)
    (hlarge : 971 < f → limit ≤ v) : Rounded (signed s v) (.ofModel (.pack (.finite s m f hpos))) := by
  rcases le_or_gt f 971 with hf | hf
  · have hcanonical : Canonical m f := ⟨hpos, hlt, hleast, hf, hfull⟩
    refine h.rounded s (isFinite_ofCanonical s hcanonical) ?_
    rw [hvalue]
    exact value_ofCanonical s hcanonical
  · have hinfinite := isFinite_pack_of_large s hpos hf
    refine ⟨fun hv => ?_, fun hx => ?_⟩
    · rw [abs_signed, abs_of_nonneg h.nonneg] at hv
      exact absurd hv (hlarge hf).not_gt
    · rw [hinfinite] at hx
      cases hx

end OnGrid

/-- A mantissa of at most 53 bits is kept, whatever its exponent is. -/
theorem shiftToTargetExponent_of_lt {n : Nat} {e : Int} (hn : n < 2 ^ 53) (he : -1074 ≤ e) :
    shiftToTargetExponent .binary64 n e .exact = (⟨n, false, false⟩, e) := by
  have hlog : n.log2 < 53 := by
    rcases eq_or_ne n 0 with rfl | hzero
    · decide
    · exact (Nat.log2_lt hzero).2 hn
  have hshift : (Format.binary64.targetExponent (totalExponent n e) - e).toNat = 0 := by
    rw [binary64_targetExponent, totalExponent]
    omega
  simp only [shiftToTargetExponent, shiftToExponent, hshift, Nat.cast_zero, add_zero]
  rfl

/-- A mantissa that rounding made one bit too long loses that bit. -/
theorem shiftToTargetExponent_two_pow {e : Int} (he : -1074 ≤ e) :
    shiftToTargetExponent .binary64 (2 ^ 53) e .exact = (⟨2 ^ 52, false, false⟩, e + 1) := by
  have hshift : (Format.binary64.targetExponent (totalExponent (2 ^ 53) e) - e).toNat = 1 := by
    rw [binary64_targetExponent, totalExponent, Nat.log2_two_pow]
    omega
  simp only [shiftToTargetExponent, shiftToExponent, hshift]
  rfl

/-- **Rounding is to the nearest double.** -/
theorem rounded_roundWithAccuracy (s : Sign) {v : ℝ} {m : Nat} {e : Int} {a : Accuracy} (hv : Describes (v / 2 ^ e) m a)
    (he : e ≤ Format.binary64.targetExponent (totalExponent m e)) :
    Rounded (signed s v) (.ofModel (.pack (roundWithAccuracy .binary64 s m e a))) := by
  have hgrid := onGrid_shiftToTargetExponent hv he
  simp only [roundWithAccuracy]
  generalize shiftToTargetExponent .binary64 m e a = first at hgrid ⊢
  obtain ⟨em, E⟩ := first
  dsimp only at hgrid ⊢
  generalize em.roundedMantissa = n at hgrid ⊢
  rcases hgrid.le.lt_or_eq with hlt | rfl
  · rw [shiftToTargetExponent_of_lt hlt hgrid.least]
    dsimp only
    split
    · rename_i hzero
      subst hzero
      refine hgrid.rounded s (isFinite_pack_zero s) ?_
      rw [value_pack_zero, Nat.cast_zero, zero_mul, signed_zero]
    · rename_i hpos
      exact hgrid.rounded_pack s (Nat.pos_of_ne_zero hpos) hlt hgrid.least hgrid.le_mantissa rfl hgrid.limit_le
  · rw [shiftToTargetExponent_two_pow hgrid.least]
    dsimp only
    rw [dif_neg (by decide)]
    refine hgrid.rounded_pack s (by decide) (by decide) (by linarith [hgrid.least]) (.inl le_rfl) ?_ hgrid.limit_le_of_carry
    rw [zpow_add_one₀ two_ne_zero]
    norm_num
    ring

end RotationCircuits.Binary64
