import RotationCircuits.Proofs.Binary64.Canonical
import RotationCircuits.Proofs.Decimal.Value

/-!
# Reading doubles back

A decimal whose value is that of a double is read as this double, since neither a product nor a quotient by a power of ten
is rounded then (`toFloat_of_value`). So the shortest decimal of a finite double is read as its magnitude, also where the
search for it fails (`toFloat_shortest`).
-/

namespace RotationCircuits.Decimal

open Binary64 (Canonical)
open Float.Model (Format UnpackedFloat)
open Float.Model.UnpackedFloat

/-- An equation between multiples of powers of two, without negative powers. -/
theorem mul_two_pow_eq {a b : Nat} {e e' : Int} (h : (a : ℚ) = b * 2 ^ e) (he : e' ≤ e) (hneg : e' ≤ 0) :
    a * 2 ^ (-e').toNat = b * 2 ^ (e - e').toNat := by
  have htwo : (2 : ℚ) ≠ 0 := by decide
  have hcast : (a : ℚ) * 2 ^ (-e').toNat = b * 2 ^ (e - e').toNat := by
    rw [← zpow_natCast, ← zpow_natCast, Int.toNat_of_nonneg (by omega), Int.toNat_of_nonneg (by omega), h, mul_assoc,
      ← zpow_add₀ htwo, sub_eq_add_neg]
  exact_mod_cast hcast

theorem pos_of_eq_mul_two_zpow {a b : Nat} {e : Int} (h : (a : ℚ) = b * 2 ^ e) (hb : 0 < b) : 0 < a := by
  have hvalue : (0 : ℚ) < b * 2 ^ e := mul_pos (Nat.cast_pos.2 hb) (zpow_pos (by decide) e)
  rw [← h] at hvalue
  exact_mod_cast hvalue

theorem two_pow_le_ten_pow (k : Nat) : 2 ^ k ≤ 10 ^ k := Nat.pow_le_pow_left (by omega) k

theorem log2_mul_le {a b : Nat} (ha : 0 < a) (hb : 0 < b) : (a * b).log2 ≤ a.log2 + b.log2 + 1 := by
  have hlt : a * b < 2 ^ (a.log2 + 1) * 2 ^ (b.log2 + 1) :=
    Nat.mul_lt_mul_of_lt_of_lt Nat.lt_log2_self Nat.lt_log2_self
  rw [← pow_add, ← Nat.log2_lt (Nat.mul_pos ha hb).ne'] at hlt
  omega

section Exact

variable {n k m : Nat} {e : Int} (hc : Canonical m e)

include hc

/-- A natural number that is a double has no places below the 53 bits of a mantissa. -/
theorem exponent_of_natural {a : Nat} (h : (a : ℚ) = m * 2 ^ e) : -53 ≤ e := by
  by_contra hsmall
  have heq := mul_two_pow_eq h (le_refl e) (by omega)
  rw [Int.sub_self, Int.toNat_zero, pow_zero, Nat.mul_one] at heq
  have hpow : 2 ^ 53 ≤ 2 ^ (-e).toNat := Nat.pow_le_pow_right (by omega) (by omega)
  have hm : 2 ^ (-e).toNat ≤ m := heq ▸ Nat.le_mul_of_pos_left _ (pos_of_eq_mul_two_zpow h hc.pos)
  exact absurd (hpow.trans hm) hc.lt.not_ge

theorem lt_of_two_pow_le_natural {a : Nat} (h : (a : ℚ) = m * 2 ^ e) (hk : 2 ^ k ≤ a) : k < 1024 := by
  have hgreatest := hc.greatest
  refine (Nat.pow_lt_pow_iff_right (by omega : 1 < 2)).1 ?_
  calc 2 ^ k
    _ ≤ a := hk
    _ ≤ a * 2 ^ (-min e 0).toNat := Nat.le_mul_of_pos_right _ (Nat.two_pow_pos _)
    _ = m * 2 ^ (e - min e 0).toNat := mul_two_pow_eq h (min_le_left e 0) (min_le_right e 0)
    _ < 2 ^ 53 * 2 ^ (e - min e 0).toNat := Nat.mul_lt_mul_of_pos_right hc.lt (Nat.two_pow_pos _)
    _ = 2 ^ (53 + (e - min e 0).toNat) := (pow_add ..).symm
    _ ≤ 2 ^ 1024 := Nat.pow_le_pow_right (by omega) (by omega)

/-- A double that is a multiple of a power of ten is read by an exact product. -/
theorem ofScientific_of_mul_eq (h : ((n * 10 ^ k : Nat) : ℚ) = m * 2 ^ e) :
    UnpackedFloat.ofScientific .binary64 n k = .finite .positive m e hc.pos := by
  have hn : n ≠ 0 := (Nat.pos_of_mul_pos_right (pos_of_eq_mul_two_zpow h hc.pos)).ne'
  have hleast := exponent_of_natural hc h
  have hk := lt_of_two_pow_le_natural hc h
    ((two_pow_le_ten_pow k).trans (Nat.le_mul_of_pos_left _ (Nat.pos_of_ne_zero hn)))
  have hmantissa : n <<< 53 * 10 ^ k = m * 2 ^ (e - -53).toNat := by
    rw [Nat.shiftLeft_eq, Nat.mul_right_comm]
    exact mul_two_pow_eq h hleast (by omega)
  have hround := Binary64.roundWithAccuracy_of_canonical .positive hc hleast
  rw [← hmantissa] at hround
  simp only [UnpackedFloat.ofScientific, dif_neg hn]
  rw [if_neg (by change ¬ (k : Int) > 2048; omega), if_neg (by change ¬ (k : Int) < -(2048 + n.log2); omega),
    if_pos (by omega)]
  exact hround

/-- The exponent of a quotient is small enough to write the quotient with it. -/
theorem targetExponent_div_le (h : (n : ℚ) = (10 ^ k * m : Nat) * 2 ^ e) :
    Format.binary64.targetExponent
      (Float.Model.totalExponent n 0 - Float.Model.totalExponent (10 ^ k) 0) ≤ e := by
  have hten : 0 < 10 ^ k := Nat.pow_pos (by omega)
  have hpos : 0 < 10 ^ k * m := Nat.mul_pos hten hc.pos
  have hlog : n.log2 + (-min e 0).toNat = (10 ^ k * m).log2 + (e - min e 0).toNat := by
    rw [← Binary64.log2_mul_two_pow (pos_of_eq_mul_two_zpow h hpos), ← Binary64.log2_mul_two_pow hpos,
      mul_two_pow_eq h (min_le_left e 0) (min_le_right e 0)]
  have hmul := log2_mul_le hten hc.pos
  have hleast := hc.least
  have htarget := Binary64.targetExponent_of_canonical hc
  unfold Format.targetExponent Float.Model.totalExponent at *
  omega

/-- A fraction that is a double is not so small that it would be read as zero. -/
theorem lt_of_fraction (h : (n : ℚ) = (10 ^ k * m : Nat) * 2 ^ e) : k < n.log2 + 1 + 1074 := by
  have hleast := hc.least
  have hlt : k < n.log2 + 1 + (-min e 0).toNat := by
    refine (Nat.pow_lt_pow_iff_right (by omega : 1 < 2)).1 ?_
    calc 2 ^ k
      _ ≤ 10 ^ k * m := (two_pow_le_ten_pow k).trans (Nat.le_mul_of_pos_right _ hc.pos)
      _ ≤ 10 ^ k * m * 2 ^ (e - min e 0).toNat := Nat.le_mul_of_pos_right _ (Nat.two_pow_pos _)
      _ = n * 2 ^ (-min e 0).toNat := (mul_two_pow_eq h (min_le_left e 0) (min_le_right e 0)).symm
      _ < 2 ^ (n.log2 + 1) * 2 ^ (-min e 0).toNat := Nat.mul_lt_mul_of_pos_right Nat.lt_log2_self (Nat.two_pow_pos _)
      _ = 2 ^ (n.log2 + 1 + (-min e 0).toNat) := (pow_add ..).symm
  omega

/-- A double that is a fraction of a power of ten is read by an exact quotient. -/
theorem ofScientific_of_div_eq (hk : 0 < k) (h : (n : ℚ) = (10 ^ k * m : Nat) * 2 ^ e) :
    UnpackedFloat.ofScientific .binary64 n (-k) = .finite .positive m e hc.pos := by
  have hten : 0 < 10 ^ k := Nat.pow_pos (by omega)
  have hn : n ≠ 0 := (pos_of_eq_mul_two_zpow h (Nat.mul_pos hten hc.pos)).ne'
  have hsmall := lt_of_fraction hc h
  -- With the exponent that is chosen for the quotient the division leaves no remainder, since it is at most `e`.
  obtain ⟨e', he'⟩ : ∃ e', e' = min (0 - 0) (Format.binary64.targetExponent
      (Float.Model.totalExponent n 0 - Float.Model.totalExponent (10 ^ k) 0)) := ⟨_, rfl⟩
  have hle : e' ≤ e := he' ▸ (min_le_right _ _).trans (targetExponent_div_le hc h)
  have hneg : e' ≤ 0 := he' ▸ min_le_left _ _
  have hshift : n <<< (0 - 0 - e').toNat = 10 ^ k * (m * 2 ^ (e - e').toNat) := by
    rw [Nat.shiftLeft_eq, ← Nat.mul_assoc, ← mul_two_pow_eq h hle hneg]
    congr 2
    omega
  have hdiv : divCore .binary64 n 0 (10 ^ k) 0 = (m * 2 ^ (e - e').toNat, e', .exact) := by
    simp only [divCore, ← he', hshift, Nat.mul_div_cancel_left _ hten, Nat.mul_mod_right]
    rfl
  simp only [UnpackedFloat.ofScientific, dif_neg hn]
  rw [if_neg (by change ¬ (-k : Int) > 2048; omega), if_neg (by change ¬ (-k : Int) < -(2048 + n.log2); omega),
    if_neg (by omega)]
  simp only [Int.neg_neg, Int.toNat_natCast, UnpackedFloat.div, hdiv]
  exact Binary64.roundWithAccuracy_of_canonical .positive hc hle

/-- A decimal that is a double is read as this double. -/
theorem toFloat_of_value {d : Decimal} (h : d.value = m * 2 ^ e) :
    d.toFloat = .ofModel (.pack (.finite .positive m e hc.pos)) := by
  rw [← value_normalize, value] at h
  rw [toFloat, Float.Model.ofScientific]
  congr 2
  rcases lt_or_ge d.normalize.exponent 0 with hneg | hnonneg
  · obtain ⟨k, hk⟩ : ∃ k : Nat, d.normalize.exponent = -k := ⟨(-d.normalize.exponent).toNat, by omega⟩
    rw [hk] at h ⊢
    refine ofScientific_of_div_eq hc (by omega) ?_
    have hten : (10 : ℚ) ^ k ≠ 0 := pow_ne_zero _ (by decide)
    rw [zpow_neg, zpow_natCast, mul_inv_eq_iff_eq_mul₀ hten] at h
    rw [h]
    push_cast
    ring
  · obtain ⟨k, hk⟩ : ∃ k : Nat, d.normalize.exponent = k := Int.eq_ofNat_of_zero_le hnonneg
    rw [hk, zpow_natCast] at h
    rw [hk]
    exact ofScientific_of_mul_eq hc (by exact_mod_cast h)

end Exact

/-- A decimal is read as a number without sign, which may be infinite. -/
theorem hasSign_toFloat (d : Decimal) : Binary64.HasSign .positive d.toFloat.toModel.unpack := by
  refine Binary64.HasSign.pack ?_
  unfold UnpackedFloat.ofScientific
  split
  · rfl
  split
  · rfl
  split
  · rfl
  split
  · exact Binary64.hasSign_roundWithAccuracy ..
  · exact Binary64.hasSign_roundWithAccuracy ..

theorem isNaN_toFloat (d : Decimal) : d.toFloat.isNaN = false := by
  have hsign := d.hasSign_toFloat
  change d.toFloat.toModel.unpack.isNaN = false
  cases h : d.toFloat.toModel.unpack with
  | notANumber =>
    rw [h] at hsign
    cases hsign
  | _ => rfl

theorem isNegative_toFloat (d : Decimal) : Binary64.isNegative d.toFloat = false := by
  have hsign := d.hasSign_toFloat
  unfold Binary64.isNegative
  cases h : d.toFloat.toModel.unpack with
  | notANumber => rfl
  | _ =>
    rw [h] at hsign
    cases hsign
    rfl

theorem value_exact (m : Nat) (e : Int) : (exact m e).value = m * 2 ^ e := by
  simp only [value, exact, Nat.pow_eq]
  push_cast
  rw [← zpow_natCast, ← zpow_natCast]
  rcases le_or_gt 0 e with he | he
  · rw [Int.toNat_of_nonneg he, Int.toNat_of_nonpos (by omega), min_eq_right he]
    simp
  · have hfive : (5 : ℚ) ^ e ≠ 0 := zpow_ne_zero _ (by decide)
    rw [Int.toNat_of_nonpos he.le, Int.toNat_of_nonneg (by omega), min_eq_left he.le, zpow_neg,
      show (10 : ℚ) = 2 * 5 by norm_num, mul_zpow]
    field_simp
    simp

/-- What the search finds has been read back. -/
theorem toFloat_of_search {tie : Tie} {x : Float} {num den : Nat} {d : Decimal} (h : search tie x num den = some d) :
    d.toFloat = x := by
  obtain ⟨n, -, hfind⟩ := List.exists_of_findSome?_eq_some h
  simpa using List.find?_some hfind

/-- **Shortest decimals are read back.** -/
theorem toFloat_shortest (tie : Tie) {x : Float} (hx : x.isFinite = true) : (shortest tie x).toFloat = x.abs := by
  unfold shortest
  split
  · next s m e hpos hu =>
    rw [toFloat_eq_of_value_eq (value_normalize _)]
    cases hsearch : search tie x.abs (m * Nat.pow 2 e.toNat) (Nat.pow 2 (-e).toNat) with
    | none =>
      rw [Binary64.abs_of_unpack hu]
      exact toFloat_of_value (Binary64.canonical_of_unpack hu) (value_exact m e)
    | some d => exact toFloat_of_search hsearch
  · next hu =>
    change x.toModel.unpack.isFinite = true at hx
    rw [Binary64.abs_of_unpack rfl]
    cases h : x.toModel.unpack with
    | zero s => rfl
    | finite s m e hpos => exact absurd h (hu s m e hpos)
    | _ => simp [h, UnpackedFloat.isFinite] at hx

theorem plainChars_of_isFinite {x : Float} (hx : x.isFinite = true) :
    plainChars x = signed x (shortest .up x).positional := by
  have hnumber : x.isNaN = false ∧ x.isInf = false := by
    change x.toModel.unpack.isFinite = true at hx
    change x.toModel.unpack.isNaN = false ∧ x.toModel.unpack.isInf = false
    cases h : x.toModel.unpack <;> simp_all [UnpackedFloat.isFinite, UnpackedFloat.isNaN, UnpackedFloat.isInf]
  simp only [plainChars, charsWith, hnumber, Bool.false_eq_true, if_false]

end RotationCircuits.Decimal
