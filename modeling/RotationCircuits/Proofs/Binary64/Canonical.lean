import Mathlib
import RotationCircuits.Binary64

/-!
# Mantissas and exponents of doubles

A finite double other than zero is `± m * 2 ^ e` for a canonical pair: `m` has 53 bits, or fewer if `e` is the least
exponent. Unpacking a double gives such a pair (`canonical_of_unpack`), and packing and unpacking undo each other
(`unpack_pack`, `pack_unpack`). So a double is made up of its sign and its magnitude (`neg_abs_of_isNegative`,
`abs_of_not_isNegative`), and rounding does not change it (`roundWithAccuracy_of_canonical`). Whatever is packed, also if it
becomes infinite, keeps its sign (`HasSign.pack`).

The lemmas on packed doubles that this starts from come only with Mathlib as a whole.
-/

namespace RotationCircuits.Binary64

open Float.Model (Format UnpackedFloat)
open Float.Model.UnpackedFloat

/-- The mantissa and the exponent of a finite double other than zero. -/
structure Canonical (m : Nat) (e : Int) : Prop where
  pos : 0 < m
  lt : m < 2 ^ 53
  least : -1074 ≤ e
  greatest : e ≤ 971
  full : 2 ^ 52 ≤ m ∨ e = -1074

/-! ## Fields of a double -/

/-- The bit in front of a full mantissa is not stored. -/
theorem toNat_one_append (m : BitVec 52) : (1#1 ++ m).toNat = 2 ^ 52 + m.toNat := by
  rw [BitVec.toNat_append, ← Nat.shiftLeft_add_eq_or_of_lt m.isLt]
  rfl

theorem unpack_of_full (s : Sign) {e : BitVec 11} (m : BitVec 52) (hmax : e ≠ -1#11) (hmin : e ≠ 0#11) :
    UnpackedFloat.unpack .binary64 (packComponents .binary64 s e m) =
      .finite s (2 ^ 52 + m.toNat) (e.toNat - 1075) (by omega) := by
  simp only [UnpackedFloat.unpack, unpackMantissa_packComponents, unpackExponent_packComponents,
    unpackSign_packComponents, if_neg hmax, if_neg hmin, toNat_one_append]
  cases s <;> rfl

theorem unpack_of_short (s : Sign) {m : BitVec 52} (hm : m ≠ 0#52) :
    UnpackedFloat.unpack .binary64 (packComponents .binary64 s 0#11 m) = .finite s m.toNat (-1074) (by bv_omega) := by
  have hmax : (0#11 : BitVec 11) ≠ -1#11 := by decide
  simp only [UnpackedFloat.unpack, unpackMantissa_packComponents, unpackExponent_packComponents,
    unpackSign_packComponents, if_neg hmax, dif_neg hm]
  cases s <;> rfl

theorem pack_of_full (s : Sign) {m : Nat} {e : Int} (hpos : 0 < m) (hfull : 2 ^ 52 ≤ m) (hlt : m < 2 ^ 53)
    (hleast : -1074 ≤ e) (hgreatest : e ≤ 971) :
    UnpackedFloat.pack .binary64 (.finite s m e hpos) =
      packComponents .binary64 s (.ofNat 11 (e + 1075).toNat) (.ofNat 52 m) := by
  have hlog : m.log2 = 52 := by
    have h₁ := (Nat.le_log2 hpos.ne').2 hfull
    have h₂ := (Nat.log2_lt hpos.ne').2 hlt
    omega
  have hfield : (e + (Format.binary64.exponentBias : Int) +
      (Format.binary64.mantissaBitsWithoutImplicit : Int)).toNat = (e + 1075).toNat := by
    change (e + 1023 + 52).toNat = _
    omega
  simp only [UnpackedFloat.pack, hlog, hfield]
  rw [if_neg (by omega), if_pos (by decide)]

theorem pack_of_short (s : Sign) {m : Nat} (hpos : 0 < m) (hlt : m < 2 ^ 52) :
    UnpackedFloat.pack .binary64 (.finite s m (-1074) hpos) = packComponents .binary64 s 0#11 (.ofNat 52 m) := by
  have hbits : m.log2 + 1 ≠ Format.binary64.mantissaBits := by
    have := (Nat.log2_lt hpos.ne').2 hlt
    change m.log2 + 1 ≠ 53
    omega
  simp only [UnpackedFloat.pack]
  rw [if_neg (by decide), if_neg hbits]

/-! ## Packing and unpacking -/

theorem unpack_pack (s : Sign) {m : Nat} {e : Int} (h : Canonical m e) :
    (Float.Model.pack (.finite s m e h.pos)).unpack = .finite s m e h.pos := by
  obtain ⟨hpos, hlt, hleast, hgreatest, hfull⟩ := h
  change UnpackedFloat.unpack .binary64 (UnpackedFloat.pack .binary64 _) = _
  by_cases hm : 2 ^ 52 ≤ m
  · have hmax : BitVec.ofNat 11 (e + 1075).toNat ≠ -1#11 := by bv_omega
    have hmin : BitVec.ofNat 11 (e + 1075).toNat ≠ 0#11 := by bv_omega
    rw [pack_of_full s hpos hm hlt hleast hgreatest, unpack_of_full s _ hmax hmin]
    simp only [BitVec.toNat_ofNat, finite.injEq, true_and]
    omega
  · obtain rfl : e = -1074 := by omega
    have hshort : BitVec.ofNat 52 m ≠ 0#52 := by bv_omega
    rw [pack_of_short s hpos (by omega), unpack_of_short s hshort]
    simp only [BitVec.toNat_ofNat, finite.injEq, true_and, and_true]
    omega

/-- A number with this sign. What is not a number has none. -/
def HasSign (s : Sign) : UnpackedFloat → Prop
  | .finite t _ _ _ => t = s
  | .infinity t => t = s
  | .zero t => t = s
  | .notANumber => False

/-- Only the largest exponent field can stand for something that is not a number. -/
theorem hasSign_packComponents (s : Sign) {e : BitVec 11} (m : BitVec 52) (he : e ≠ -1#11) :
    HasSign s (UnpackedFloat.unpack .binary64 (packComponents .binary64 s e m)) := by
  have hsign : Sign.ofBitVec s.toBitVec = s := by cases s <;> rfl
  simp only [UnpackedFloat.unpack, unpackExponent_packComponents, unpackSign_packComponents, if_neg he]
  split
  · split <;> exact hsign
  · exact hsign

/-- Packing keeps numbers numbers, also those that become infinite, and it keeps their signs. -/
theorem HasSign.pack {s : Sign} {u : UnpackedFloat} (h : HasSign s u) : HasSign s (Float.Model.pack u).unpack := by
  cases u with
  | notANumber => cases h
  | infinity t =>
    cases h
    cases s <;> rfl
  | zero t =>
    cases h
    cases s <;> rfl
  | finite t m e hpos =>
    cases h
    change HasSign s (UnpackedFloat.unpack .binary64 (UnpackedFloat.pack .binary64 _))
    simp only [UnpackedFloat.pack]
    split
    · cases s <;> rfl
    · next hlarge =>
      change ¬ 2048 ≤ (e + 1023 + 52).toNat + 1 at hlarge
      split
      · refine hasSign_packComponents s _ ?_
        change BitVec.ofNat 11 (e + 1023 + 52).toNat ≠ -1#11
        bv_omega
      · exact hasSign_packComponents s _ (by decide)

theorem canonical_of_unpack {b : BitVec Format.binary64.numBits} {s : Sign} {m : Nat} {e : Int} {hpos : 0 < m}
    (h : UnpackedFloat.unpack .binary64 b = .finite s m e hpos) : Canonical m e := by
  obtain ⟨t, f, n, rfl⟩ : ∃ (t : Sign) (f : BitVec 11) (n : BitVec 52), b = packComponents .binary64 t f n :=
    ⟨_, _, _, (packComponents_unpackSign_unpackExponent_unpackMantissa b).symm⟩
  by_cases hmax : f = -1#11
  · simp only [UnpackedFloat.unpack, unpackExponent_packComponents, if_pos hmax] at h
    split at h <;> cases h
  by_cases hmin : f = 0#11
  · subst hmin
    by_cases hn : n = 0#52
    · subst hn
      cases unpack_packedZero.symm.trans h
    · rw [unpack_of_short t hn] at h
      cases h
      exact ⟨hpos, by omega, by omega, by omega, .inr rfl⟩
  · rw [unpack_of_full t n hmax hmin] at h
    cases h
    exact ⟨hpos, by omega, by bv_omega, by bv_omega, .inl (by omega)⟩

/-- A double is what it unpacks to. -/
theorem pack_unpack (x : Float) : Float.ofModel (.pack x.toModel.unpack) = x :=
  Float.toBits_inj.1 (UInt64.toBitVec_inj.1 (pack_unpack_of_valid x.toModel.valid))

/-! ## Sign and magnitude -/

theorem abs_of_unpack {x : Float} {u : UnpackedFloat} (h : x.toModel.unpack = u) : x.abs = .ofModel (.pack u.abs) := by
  rw [← h]
  rfl

theorem abs_of_not_isNegative {x : Float} (h : isNegative x = false) : x.abs = x := by
  rw [abs_of_unpack rfl]
  refine Eq.trans ?_ (pack_unpack x)
  revert h
  unfold isNegative
  rcases x.toModel.unpack with (_ | _) | _ | (_ | _) | ⟨_ | _, m, e, hpos⟩ <;> simp [UnpackedFloat.abs]

theorem neg_abs_of_isNegative {x : Float} (h : isNegative x = true) : -x.abs = x := by
  refine Eq.trans ?_ (pack_unpack x)
  unfold isNegative at h
  split at h
  · next m e hpos hu =>
    have hback := unpack_pack .positive (canonical_of_unpack hu)
    rw [abs_of_unpack hu, hu]
    change Float.ofModel (.pack (Float.Model.pack (.finite .positive m e hpos)).unpack.neg) = _
    rw [hback]
    rfl
  · next hu =>
    rw [abs_of_unpack hu, hu]
    rfl
  · next hu =>
    rw [abs_of_unpack hu, hu]
    rfl
  · cases h

/-- The magnitude of a finite double is finite. -/
theorem isFinite_abs {x : Float} (hx : x.isFinite = true) : x.abs.isFinite = true := by
  change x.toModel.unpack.isFinite = true at hx
  cases hu : x.toModel.unpack with
  | finite s m e hpos =>
    rw [abs_of_unpack hu]
    change (Float.Model.pack (.finite .positive m e hpos)).unpack.isFinite = true
    rw [unpack_pack .positive (canonical_of_unpack hu)]
    rfl
  | zero s =>
    rw [abs_of_unpack hu]
    change (Float.ofModel (.pack (.zero .positive))).isFinite = true
    decide
  | _ =>
    rw [hu] at hx
    cases hx

/-! ## Rounding -/

theorem hasSign_roundWithAccuracy (s : Sign) (m : Nat) (e : Int) (a : Accuracy) :
    HasSign s (roundWithAccuracy .binary64 s m e a) := by
  unfold roundWithAccuracy
  dsimp only
  split <;> rfl

theorem log2_mul_two_pow {m : Nat} (hm : 0 < m) (k : Nat) : (m * 2 ^ k).log2 = m.log2 + k := by
  induction k with
  | zero => simp
  | succ k ih =>
    have hpos : m * 2 ^ k ≠ 0 := (Nat.mul_pos hm (Nat.two_pow_pos k)).ne'
    rw [pow_succ', Nat.mul_left_comm, Nat.log2_two_mul hpos, ih]
    rfl

theorem targetExponent_of_canonical {m : Nat} {e : Int} (h : Canonical m e) :
    Format.binary64.targetExponent (m.log2 + 1 + e) = e := by
  have hlog := (Nat.log2_lt h.pos.ne').2 h.lt
  have hleast := h.least
  change max ((m.log2 : Int) + 1 + e - 53) (-1074) = e
  rcases h.full with hfull | rfl
  · have := (Nat.le_log2 h.pos.ne').2 hfull
    omega
  · omega

theorem shiftRight_mul_two_pow (m k : Nat) :
    (⟨m * 2 ^ k, false, false⟩ : ExtendedMantissa) >>> k = ⟨m, false, false⟩ := by
  induction k generalizing m with
  | zero => exact congrArg (ExtendedMantissa.mk · false false) (Nat.mul_one m)
  | succ k ih =>
    change ExtendedMantissa.shiftRightOne ((⟨m * 2 ^ (k + 1), false, false⟩ : ExtendedMantissa) >>> k) = _
    rw [pow_succ', ← Nat.mul_assoc, ih (m * 2)]
    simp [ExtendedMantissa.shiftRightOne]

/-- Shifting a canonical number that is written with a smaller exponent gives back the canonical pair. -/
theorem shiftToTargetExponent_of_canonical {m : Nat} {e : Int} (h : Canonical m e) {e' : Int} (he : e' ≤ e) :
    shiftToTargetExponent .binary64 (m * 2 ^ (e - e').toNat) e' .exact = (⟨m, false, false⟩, e) := by
  have htotal : Float.Model.totalExponent (m * 2 ^ (e - e').toNat) e' = m.log2 + 1 + e := by
    rw [Float.Model.totalExponent, log2_mul_two_pow h.pos]
    omega
  unfold shiftToTargetExponent shiftToExponent
  simp only [htotal, targetExponent_of_canonical h]
  refine Prod.ext ?_ ?_
  · exact shiftRight_mul_two_pow m _
  · dsimp only
    omega

/-- A canonical number is not changed by rounding, with whatever smaller exponent it is written. -/
theorem roundWithAccuracy_of_canonical (s : Sign) {m : Nat} {e : Int} (h : Canonical m e) {e' : Int} (he : e' ≤ e) :
    roundWithAccuracy .binary64 s (m * 2 ^ (e - e').toNat) e' .exact = .finite s m e h.pos := by
  have hagain := shiftToTargetExponent_of_canonical h (le_refl e)
  rw [Int.sub_self, Int.toNat_zero, pow_zero, Nat.mul_one] at hagain
  have hround : (⟨m, false, false⟩ : ExtendedMantissa).roundedMantissa = m := rfl
  simp only [roundWithAccuracy, shiftToTargetExponent_of_canonical h he, hround, hagain, dif_neg h.pos.ne']

end RotationCircuits.Binary64
