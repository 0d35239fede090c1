import Mathlib.Algebra.Order.Field.Rat
import Mathlib.Tactic.FieldSimp
import Mathlib.Tactic.Ring
import RotationCircuits.Decimal.Layout

/-!
# Values of decimals

Normal forms of decimals with one value are equal (`normalize_eq_of_value_eq`), so all spellings of a number are read alike
(`toFloat_eq_of_value_eq`). Positional notation spells the value of the decimal that is laid out (`exists_positional`).
-/

namespace RotationCircuits.Decimal

/-- The number that a decimal stands for. -/
def value (d : Decimal) : ℚ := d.significand * 10 ^ d.exponent

theorem value_eq_zero_iff {d : Decimal} : d.value = 0 ↔ d.significand = 0 := by
  have hten : (10 : ℚ) ^ d.exponent ≠ 0 := zpow_ne_zero _ (by decide)
  simp [value, hten]

/-! ## Normal forms -/

/-- Only zero has a factor of ten in the significand, and its exponent is zero. -/
def IsNormal (d : Decimal) : Prop := d.significand % 10 = 0 → d = ⟨0, 0⟩

theorem value_strip (count m : Nat) (e : Int) : (strip count m e).value = m * 10 ^ e := by
  fun_induction strip count m e with
  | case1 => rfl
  | case2 count m e h ih =>
    have hm : (m : ℚ) = 10 * (m / 10 : Nat) := by
      exact_mod_cast (Nat.mul_div_cancel' (Nat.dvd_of_mod_eq_zero h)).symm
    rw [ih, hm, zpow_add_one₀ (by decide)]
    ring
  | case3 => rfl

theorem value_normalize (d : Decimal) : d.normalize.value = d.value := by
  unfold normalize
  split
  · next h => simp [value, h]
  · exact value_strip ..

/-- A number below `2 ^ (count + 1)` has at most `count` factors of ten. -/
theorem strip_significand_mod {count m : Nat} (e : Int) (hpos : 0 < m) (hlt : m < 2 ^ (count + 1)) :
    (strip count m e).significand % 10 ≠ 0 := by
  fun_induction strip count m e with
  | case1 m e =>
    change m % 10 ≠ 0
    omega
  | case2 count m e h ih => exact ih (by omega) (by omega)
  | case3 count m e h => exact h

theorem isNormal_normalize (d : Decimal) : d.normalize.IsNormal := by
  intro hmod
  unfold normalize at hmod ⊢
  split
  · rfl
  · next h =>
    rw [if_neg h] at hmod
    exact absurd hmod (strip_significand_mod _ (Nat.pos_of_ne_zero h) Nat.lt_log2_self)

theorem exponent_le_of_value_eq {d d' : Decimal} (h : d.value = d'.value) (hd : d.significand % 10 ≠ 0) :
    d'.exponent ≤ d.exponent := by
  by_contra hlt
  obtain ⟨k, hk⟩ : ∃ k : Nat, d'.exponent = (k + 1 : Nat) + d.exponent :=
    ⟨(d'.exponent - d.exponent - 1).toNat, by omega⟩
  have hten : (10 : ℚ) ^ d.exponent ≠ 0 := zpow_ne_zero _ (by decide)
  have hsignificand : d.significand = d'.significand * 10 ^ k * 10 := by
    rw [value, value, hk, zpow_add₀ (by decide), zpow_natCast, pow_succ, ← mul_assoc, ← mul_assoc] at h
    exact_mod_cast mul_right_cancel₀ hten h
  omega

/-- Normal forms of one value are equal. -/
theorem IsNormal.eq_of_value_eq {d d' : Decimal} (hd : d.IsNormal) (hd' : d'.IsNormal) (h : d.value = d'.value) :
    d = d' := by
  by_cases hmod : d.significand % 10 = 0
  · obtain rfl := hd hmod
    have hzero : d'.significand = 0 := value_eq_zero_iff.1 (h.symm.trans (value_eq_zero_iff.2 rfl))
    exact (hd' (by rw [hzero])).symm
  by_cases hmod' : d'.significand % 10 = 0
  · obtain rfl := hd' hmod'
    have hzero : d.significand = 0 := value_eq_zero_iff.1 (h.trans (value_eq_zero_iff.2 rfl))
    exact absurd (by rw [hzero]) hmod
  have hexponent : d.exponent = d'.exponent :=
    le_antisymm (exponent_le_of_value_eq h.symm hmod') (exponent_le_of_value_eq h hmod)
  have hten : (10 : ℚ) ^ d'.exponent ≠ 0 := zpow_ne_zero _ (by decide)
  have hsignificand : d.significand = d'.significand := by
    rw [value, value, hexponent] at h
    exact_mod_cast mul_right_cancel₀ hten h
  cases d
  cases d'
  simp_all

theorem normalize_eq_of_value_eq {d d' : Decimal} (h : d.value = d'.value) : d.normalize = d'.normalize :=
  (isNormal_normalize d).eq_of_value_eq (isNormal_normalize d') (by rw [value_normalize, value_normalize, h])

theorem IsNormal.normalize_eq {d : Decimal} (hd : d.IsNormal) : d.normalize = d :=
  (isNormal_normalize d).eq_of_value_eq hd (value_normalize d)

theorem toFloat_eq_of_value_eq {d d' : Decimal} (h : d.value = d'.value) : d.toFloat = d'.toFloat := by
  rw [toFloat, toFloat, normalize_eq_of_value_eq h]

/-! ## Digits -/

theorem isDigit_eq (c : Char) : isDigit c = c.isDigit := by
  simp [isDigit, Char.isDigit, Char.le_def]

theorem isDigit_of_mem_digits {n : Nat} {c : Char} (h : c ∈ digits n) : isDigit c = true := by
  rw [isDigit_eq]
  exact Nat.isDigit_of_mem_toDigits (by omega) (le_refl 10) h

theorem isDigit_of_mem_zeros {k : Nat} {c : Char} (h : c ∈ List.replicate k '0') : isDigit c = true := by
  rw [List.eq_of_mem_replicate h]
  rfl

theorem digits_ne_nil (n : Nat) : digits n ≠ [] := Nat.toDigits_ne_nil

theorem ofDigits_digits (n : Nat) : ofDigits (digits n) = n := Nat.ofDigitChars_ten_toDigits

theorem ofDigits_append_zeros (ds : List Char) (k : Nat) :
    ofDigits (ds ++ List.replicate k '0') = 10 ^ k * ofDigits ds :=
  (Nat.ofDigitChars_append 0).trans Nat.ofDigitChars_replicate_zero

theorem ofDigits_zeros_append (k : Nat) (ds : List Char) : ofDigits (List.replicate k '0' ++ ds) = ofDigits ds := by
  refine (Nat.ofDigitChars_append 0).trans ?_
  rw [Nat.ofDigitChars_replicate_zero, Nat.mul_zero]
  rfl

/-- The first digit of a number other than zero. -/
theorem head?_digits {n : Nat} (hn : n ≠ 0) : (digits n).head? ≠ some '0' := by
  induction n using Nat.strongRecOn with
  | _ n ih =>
    rcases Nat.lt_or_ge n 10 with hlt | hge
    · rw [digits, Nat.toDigits_of_lt_base hlt]
      intro hhead
      have hdigit : n.digitChar = '0' := by simpa using hhead
      exact hn (by simpa using hdigit)
    · rw [digits, Nat.toDigits_of_base_le (by omega) hge, List.head?_append_of_ne_nil _ Nat.toDigits_ne_nil]
      exact ih (n / 10) (by omega) (by omega)

/-- Digits before a point: there is no superfluous zero in front. -/
structure IsWhole (ds : List Char) : Prop where
  ne_nil : ds ≠ []
  digit : ∀ c ∈ ds, isDigit c = true
  zero : ds.head? = some '0' → ds = ['0']

theorem isWhole_digits (n : Nat) : IsWhole (digits n) := by
  refine ⟨digits_ne_nil n, fun c => isDigit_of_mem_digits, fun hhead => ?_⟩
  by_cases hn : n = 0
  · rw [hn]
    rfl
  · exact absurd hhead (head?_digits hn)

/-! ## Positional notation -/

/-- Digits with a point in front of the last `places` of them spell the same significand. -/
theorem ofParts_take_drop {ds : List Char} {places : Nat} (h : places ≤ ds.length) :
    ofParts (ds.take (ds.length - places)) (ds.drop (ds.length - places)) 0 = ⟨ofDigits ds, -places⟩ := by
  rw [ofParts, List.take_append_drop, List.length_drop]
  congr 1
  omega

/-- A zero after the point changes nothing. -/
theorem value_ofParts_zero (whole : List Char) : (ofParts whole ['0'] 0).value = (ofParts whole [] 0).value := by
  have hzero : ofDigits (whole ++ ['0']) = 10 * ofDigits whole := ofDigits_append_zeros whole 1
  simp only [ofParts, value, hzero, List.append_nil]
  push_cast
  simp
  ring

/-- A number without places after the point is written in digits alone. -/
theorem exists_positional_of_nonneg {d : Decimal} (h : 0 ≤ d.exponent) :
    ∃ whole, IsWhole whole ∧ (ofParts whole [] 0).value = d.value ∧ d.positional = whole := by
  have hplaces : (-d.exponent).toNat = 0 := by omega
  by_cases hzero : d.significand = 0
  · refine ⟨digits d.significand, isWhole_digits _, ?_, ?_⟩
    · rw [value_eq_zero_iff.2 hzero, value_eq_zero_iff, ofParts, List.append_nil, ofDigits_digits, hzero]
    · rw [positional, if_pos hplaces, if_pos hzero]
  · refine ⟨digits d.significand ++ List.replicate d.exponent.toNat '0', ?_, ?_, ?_⟩
    · refine ⟨by simp [digits_ne_nil], fun c hc => ?_, fun hhead => ?_⟩
      · exact (List.mem_append.1 hc).elim isDigit_of_mem_digits isDigit_of_mem_zeros
      · rw [List.head?_append_of_ne_nil _ (digits_ne_nil _)] at hhead
        exact absurd hhead (head?_digits hzero)
    · have hexponent : (10 : ℚ) ^ d.exponent = 10 ^ d.exponent.toNat := by
        rw [← zpow_natCast, Int.toNat_of_nonneg h]
      rw [ofParts, List.append_nil, ofDigits_append_zeros, ofDigits_digits, value, value, hexponent]
      push_cast
      simp [mul_comm]
    · rw [positional, if_pos hplaces, if_neg hzero]

/-- The digits before the point: a lone zero if the others do not reach so far. -/
theorem isWhole_take {n places : Nat} (hplaces : places ≠ 0) :
    IsWhole ((List.replicate (places + 1 - (digits n).length) '0' ++ digits n).take
      ((List.replicate (places + 1 - (digits n).length) '0' ++ digits n).length - places)) := by
  have hpos := List.length_pos_iff.2 (digits_ne_nil n)
  rcases Nat.lt_or_ge places (digits n).length with hlong | hshort
  · have hnone : places + 1 - (digits n).length = 0 := by omega
    have hn : n ≠ 0 := by
      rintro rfl
      change places < 1 at hlong
      omega
    rw [hnone, List.replicate_zero, List.nil_append]
    refine ⟨?_, fun c hc => isDigit_of_mem_digits (List.mem_of_mem_take hc), fun hhead => ?_⟩
    · rw [← List.length_pos_iff, List.length_take]
      omega
    · rw [List.head?_take, if_neg (by omega)] at hhead
      exact absurd hhead (head?_digits hn)
  · have hlength : (List.replicate (places + 1 - (digits n).length) '0' ++ digits n).length - places = 1 := by
      simp only [List.length_append, List.length_replicate]
      omega
    have hcount : places + 1 - (digits n).length = (places - (digits n).length) + 1 := by omega
    rw [hlength, hcount, List.replicate_succ]
    exact isWhole_digits 0

/-- A number with places after the point is written with a point. -/
theorem exists_positional_of_neg {d : Decimal} (h : d.exponent < 0) :
    ∃ whole fraction, IsWhole whole ∧ fraction ≠ [] ∧ (∀ c ∈ fraction, isDigit c = true) ∧
      (ofParts whole fraction 0).value = d.value ∧ d.positional = whole ++ '.' :: fraction := by
  let places := (-d.exponent).toNat
  let ds := List.replicate (places + 1 - (digits d.significand).length) '0' ++ digits d.significand
  have hplaces : places ≠ 0 := by omega
  have hlength : places < ds.length := by
    simp only [ds, List.length_append, List.length_replicate]
    omega
  refine ⟨ds.take (ds.length - places), ds.drop (ds.length - places), isWhole_take hplaces, ?_, ?_, ?_, ?_⟩
  · rw [← List.length_pos_iff, List.length_drop]
    omega
  · intro c hc
    exact (List.mem_append.1 (List.mem_of_mem_drop hc)).elim isDigit_of_mem_zeros isDigit_of_mem_digits
  · have hexponent : -(places : Int) = d.exponent := by omega
    rw [ofParts_take_drop hlength.le, ofDigits_zeros_append, ofDigits_digits, hexponent]
  · rw [positional, if_neg hplaces]

/-- Positional notation is made of digits, with a point before the fraction if there is one. It spells the value. -/
theorem exists_positional (d : Decimal) :
    ∃ whole fraction : List Char, whole ≠ [] ∧ (∀ c ∈ whole ++ fraction, isDigit c = true) ∧
      (ofParts whole fraction 0).value = d.value ∧
      (fraction = [] ∧ d.positional = whole ∨ d.positional = whole ++ '.' :: fraction) := by
  rcases le_or_gt 0 d.exponent with hexponent | hexponent
  · obtain ⟨whole, hwhole, hvalue, hform⟩ := exists_positional_of_nonneg hexponent
    refine ⟨whole, [], hwhole.ne_nil, ?_, hvalue, .inl ⟨rfl, hform⟩⟩
    rw [List.append_nil]
    exact hwhole.digit
  · obtain ⟨whole, fraction, hwhole, -, hfraction, hvalue, hform⟩ := exists_positional_of_neg hexponent
    exact ⟨whole, fraction, hwhole.ne_nil, List.forall_mem_append.2 ⟨hwhole.digit, hfraction⟩, hvalue, .inr hform⟩

end RotationCircuits.Decimal
