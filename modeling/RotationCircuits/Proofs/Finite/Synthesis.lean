import RotationCircuits.Proofs.Finite.Growth

/-!
# Finite angles from net operators

The entries of a net operator are far below the largest doubles if only few of the gates are general or if the operator is
unitary (`Sequence.Stable`). From such entries the Euler angles come out small, and a synthesized sequence is valid
(`Sequence.validate_synthesize`).
-/

namespace RotationCircuits

open Binary64
open Float.Model (UnpackedFloat)
open Hardware (Profile)

variable {T : Trigonometry} {k : Int}

/-! ## Unitary operators -/

namespace Binary64

/-- A root below a small number is the root of a number that is not negative. -/
theorem isFinite_of_sqrt_lt {x : Float} (h : x.sqrt < (1e-8 : Float)) : x.isFinite = true ∧ 0 ≤ value x := by
  have hsqrt : x.sqrt = .ofModel (.pack (UnpackedFloat.sqrt .binary64 x.toModel.unpack)) := rfl
  rw [hsqrt] at h
  rw [isFinite_eq, value]
  cases hu : x.toModel.unpack with
  | zero s => exact ⟨rfl, le_rfl⟩
  | finite s m e hpos =>
    cases s with
    | positive => exact ⟨rfl, mul_nonneg (Nat.cast_nonneg m) (zpow_nonneg zero_le_two e)⟩
    | negative =>
      rw [hu] at h
      exact absurd (show nan < (1e-8 : Float) from h) (by decide)
  | infinity s =>
    rw [hu] at h
    cases s <;> exact absurd h (by decide)
  | notANumber =>
    rw [hu] at h
    exact absurd h (by decide)

theorem lt_one_of_sqrt_lt {x : Float} (h : x.sqrt < (1e-8 : Float)) : value x < 1 := by
  obtain ⟨hx, hnonneg⟩ := isFinite_of_sqrt_lt h
  have hround := rounded_sqrt hx hnonneg
  have hfinite : x.sqrt.isFinite = true := by
    have hlimit : 1 ≤ limit := by
      have hone : (1 : ℝ) ≤ 2 ^ 970 := one_le_pow₀ one_le_two
      exact hone.trans ((le_add_of_nonneg_left (abs_nonneg _)).trans (abs_value_add_le_limit hx))
    refine hround.isFinite ?_
    rw [abs_of_nonneg (Real.sqrt_nonneg _), Real.sqrt_lt' (zero_lt_one.trans_le hlimit)]
    calc value x
      _ ≤ |value x| := le_abs_self _
      _ < limit := abs_value_lt_limit hx
      _ ≤ limit ^ 2 := le_self_pow₀ hlimit two_ne_zero
  have htolerance : value (1e-8 : Float) ≤ 1 := by
    have hunpack : ∃ m hpos, (1e-8 : Float).toModel.unpack = .finite .positive m (-79) hpos := ⟨_, _, rfl⟩
    obtain ⟨m, hpos, hunpack⟩ := hunpack
    have hle : |value (1e-8 : Float)| ≤ 1 := ((within_of_unpack hunpack).mono (show -26 ≤ 0 by decide)).abs_le
    exact (le_abs_self _).trans hle
  by_contra hlarge
  obtain ⟨y, hy, hvalue⟩ := exists_value_eq_two_zpow (k := 0) (by decide) (by decide)
  have hroot : value y ≤ √(value x) := by
    rw [hvalue, zpow_zero]
    exact Real.one_le_sqrt.2 (not_lt.1 hlarge)
  have hle := hround.le_value hfinite hy hroot
  have hlt := (lt_iff_value_lt hfinite rfl).1 h
  rw [hvalue, zpow_zero] at hle
  linarith

/-- What is rounded to a number below a power of two is below it, too. -/
theorem Rounded.abs_lt_two_zpow {v : ℝ} {x : Float} (h : Rounded v x) (hx : x.isFinite = true)
    (hlt : |value x| < 2 ^ k) (hleast : -1022 ≤ k) (hgreatest : k ≤ 1023) : |v| < 2 ^ k := by
  obtain ⟨y, hy, hvalue⟩ := exists_value_eq_two_zpow hleast hgreatest
  rw [← hvalue, abs_lt] at hlt ⊢
  constructor
  · refine not_le.1 fun hle => hlt.1.not_ge ?_
    rw [← value_neg] at hle ⊢
    exact h.value_le hx (by rwa [isFinite_neg]) hle
  · exact not_le.1 fun hle => hlt.2.not_ge (h.le_value hx hy hle)

/-- Factors of one magnitude are small if their product is. -/
theorem within_of_mul {x y : Float} (hfinite : (x * y).isFinite = true) (habs : |value x| = |value y|)
    (hlt : |value (x * y)| < 2 ^ (2 * k)) (hleast : -511 ≤ k) (hgreatest : k ≤ 511) : Within k y := by
  obtain ⟨hx, hy⟩ := isFinite_of_mul hfinite
  have hsquare := (rounded_mul hx hy).abs_lt_two_zpow hfinite hlt (by omega) (by omega)
  rw [abs_mul, habs, two_mul, zpow_add₀ two_ne_zero] at hsquare
  exact ⟨hy, (lt_of_mul_self_lt_mul_self₀ (zpow_nonneg zero_le_two k) hsquare).le⟩

theorem isFinite_of_sub {x y : Float} (h : (x - y).isFinite = true) : x.isFinite = true ∧ y.isFinite = true := by
  rw [sub_eq_add_neg_float] at h
  obtain ⟨hx, hy⟩ := isFinite_of_add h
  exact ⟨hx, by rwa [isFinite_neg] at hy⟩

/-- Adding something that is not negative does not make a number smaller. -/
theorem value_le_add {x y : Float} (h : (x + y).isFinite = true) (hy : 0 ≤ value y) : value x ≤ value (x + y) := by
  obtain ⟨hxf, hyf⟩ := isFinite_of_add h
  exact (rounded_add hxf hyf).le_value h hxf (le_add_of_nonneg_right hy)

theorem value_le_add_left {x y : Float} (h : (x + y).isFinite = true) (hx : 0 ≤ value x) : value y ≤ value (x + y) := by
  obtain ⟨hxf, hyf⟩ := isFinite_of_add h
  exact (rounded_add hxf hyf).le_value h hyf (le_add_of_nonneg_left hx)

/-- Numbers that are not negative are added from left to right, so the sum is at least the first and the last of them. -/
theorem outer_le_of_sum {a b c d : Float} (h : (0.0 + a + b + c + d).isFinite = true)
    (ha : a.isFinite = true → 0 ≤ value a) (hb : b.isFinite = true → 0 ≤ value b)
    (hc : c.isFinite = true → 0 ≤ value c) (hd : d.isFinite = true → 0 ≤ value d) :
    (a.isFinite = true ∧ value a ≤ value (0.0 + a + b + c + d)) ∧
      d.isFinite = true ∧ value d ≤ value (0.0 + a + b + c + d) := by
  obtain ⟨habc, hdf⟩ := isFinite_of_add h
  obtain ⟨hab, hcf⟩ := isFinite_of_add habc
  obtain ⟨ha', hbf⟩ := isFinite_of_add hab
  obtain ⟨-, haf⟩ := isFinite_of_add ha'
  have hfirst : value a ≤ value (0.0 + a + b + c) := calc
    value a ≤ value (0.0 + a) := value_le_add_left ha' value_zero.ge
    _ ≤ value (0.0 + a + b) := value_le_add hab (hb hbf)
    _ ≤ value (0.0 + a + b + c) := value_le_add habc (hc hcf)
  exact ⟨⟨haf, hfirst.trans (value_le_add h (hd hdf))⟩, hdf, value_le_add_left h ((ha haf).trans hfirst)⟩

theorem value_mul_self_nonneg {x : Float} (h : (x * x).isFinite = true) : 0 ≤ value (x * x) := by
  have hx := (isFinite_of_mul h).1
  rw [← value_zero]
  refine (rounded_mul hx hx).le_value h rfl ?_
  rw [value_zero]
  exact mul_self_nonneg _

theorem value_neg_mul_self_nonpos {x : Float} (h : (-x * x).isFinite = true) : value (-x * x) ≤ 0 := by
  obtain ⟨hneg, hx⟩ := isFinite_of_mul h
  rw [← value_zero]
  refine (rounded_mul hneg hx).value_le h rfl ?_
  rw [value_zero, value_neg, neg_mul, neg_nonpos]
  exact mul_self_nonneg _

/-- A sum of squares, written as a difference, is not negative, and it bounds both numbers. -/
theorem square_sum_bounds {x y : Float} (h : (x * x - -y * y).isFinite = true) :
    0 ≤ value (x * x - -y * y) ∧ (value (x * x - -y * y) < 4 → Within 1 x ∧ Within 1 y) := by
  obtain ⟨hx, hy⟩ := isFinite_of_sub h
  rw [sub_eq_add_neg_float] at h ⊢
  have hx0 := value_mul_self_nonneg hx
  have hy0 : 0 ≤ value (-(-y * y)) := by
    rw [value_neg, neg_nonneg]
    exact value_neg_mul_self_nonpos hy
  have hxle := value_le_add h hy0
  have hyle := value_le_add_left h hx0
  refine ⟨hx0.trans hxle, fun hlt => ⟨within_of_mul hx rfl ?_ (by decide) (by decide), within_of_mul hy ?_ ?_ (by decide)
    (by decide)⟩⟩
  · rw [abs_of_nonneg hx0]
    exact (hxle.trans_lt hlt).trans_eq (by norm_num)
  · rw [value_neg, abs_neg]
  · rw [← abs_neg, ← value_neg, abs_of_nonneg hy0]
    exact (hyle.trans_lt hlt).trans_eq (by norm_num)

/-- A number is less than 4 if it differs from 1 by at most 1, all of it rounded. -/
theorem lt_four_of_sub_one {x : Float} (h : Within 0 (x - 1.0)) : value x < 4 := by
  obtain ⟨hx, hone⟩ := isFinite_of_sub h.isFinite
  have hunit := (abs_le.1 within_one.abs_le).2
  have hle := (abs_le.1 h.abs_le).2
  rw [zpow_zero] at hunit hle
  by_contra hlarge
  obtain ⟨y, hy, hvalue⟩ := exists_value_eq_two_zpow (k := 1) (by decide) (by decide)
  have htwo := (rounded_sub hx hone).le_value h.isFinite hy (by rw [hvalue]; linarith)
  rw [hvalue] at htwo
  linarith

end Binary64

namespace Amplitude

variable {z w : Amplitude T.Double}

theorem normSq_nonneg (h : Float.isFinite z.normSq = true) : 0 ≤ value z.normSq := by
  obtain ⟨hre, him⟩ := isFinite_of_add h
  exact (value_mul_self_nonneg hre).trans (value_le_add h (value_mul_self_nonneg him))

/-- A part is no longer than the whole. -/
theorem within_re_of_normSq (h : Float.isFinite z.normSq = true) (hlt : value z.normSq < 1) : Binary64.Within 0 z.re := by
  obtain ⟨hre, him⟩ := isFinite_of_add h
  have hnonneg := value_mul_self_nonneg hre
  have hle := value_le_add h (value_mul_self_nonneg him)
  refine within_of_mul hre rfl ?_ (by decide) (by decide)
  rw [abs_of_nonneg hnonneg]
  exact (hle.trans_lt hlt).trans_eq (by norm_num)

/-- The real part of `z̄ z` is a square of the length, and if that is small so are the parts. -/
theorem conj_mul_self (h : Float.isFinite (z.conj * z).re = true) :
    0 ≤ value (z.conj * z).re ∧ (value (z.conj * z).re < 4 → z.Within 1) :=
  square_sum_bounds h

end Amplitude

namespace Operator

variable {u : Operator T.Double}

/-- A column whose length is about 1 has small entries. -/
theorem within_column {z w : Amplitude T.Double} (h : Binary64.Within 0 ((z.conj * z + w.conj * w - .one).re)) :
    z.Within 1 ∧ w.Within 1 := by
  have hfinite := (isFinite_of_sub h.isFinite).1
  have hlt := lt_four_of_sub_one h
  obtain ⟨hz, hw⟩ := isFinite_of_add hfinite
  obtain ⟨hz0, hzwithin⟩ := Amplitude.conj_mul_self hz
  obtain ⟨hw0, hwwithin⟩ := Amplitude.conj_mul_self hw
  exact ⟨hzwithin ((value_le_add hfinite hw0).trans_lt hlt), hwwithin ((value_le_add_left hfinite hz0).trans_lt hlt)⟩

/-- **The entries of a unitary operator are small.** -/
theorem within_of_isUnitary (h : u.isUnitary 1e-8 = true) : u.Within 1 := by
  have hlt := of_decide_eq_true h
  have hone := lt_one_of_sqrt_lt hlt
  -- The test sums up the squared entries of `u† u - 1`; the two on the diagonal are enough.
  obtain ⟨⟨h00, hle00⟩, h11, hle11⟩ := outer_le_of_sum (isFinite_of_sqrt_lt hlt).1 Amplitude.normSq_nonneg
    Amplitude.normSq_nonneg Amplitude.normSq_nonneg Amplitude.normSq_nonneg
  obtain ⟨hu00, hu10⟩ := within_column (Amplitude.within_re_of_normSq h00 (hle00.trans_lt hone))
  obtain ⟨hu01, hu11⟩ := within_column (Amplitude.within_re_of_normSq h11 (hle11.trans_lt hone))
  exact ⟨hu00, hu01, hu10, hu11⟩

end Operator

/-! ## Euler angles -/

namespace Binary64

theorem within_toDegrees {x : Float} (hx : Within 4 x) : Within 10 (Scalar.toDegrees x) := by
  have hunpack : ∃ m hpos, ((180.0 : Float) / 3.141592653589793).toModel.unpack = .finite .positive m (-47) hpos :=
    ⟨_, _, rfl⟩
  obtain ⟨m, hpos, hunpack⟩ := hunpack
  exact hx.mul (within_of_unpack hunpack)

/-- The length of a hypotenuse is at most the sum of the two sides. -/
theorem Within.hypot {x y : Float} (hx : Within k x) (hy : Within k y) (hleast : -1022 ≤ k) (hgreatest : k < 1023) :
    Within (k + 1) (hypot x y) := by
  refine (rounded_hypot hx.isFinite hy.isFinite).within ?_ (by omega) (by omega)
  rw [abs_of_nonneg (Real.sqrt_nonneg _)]
  calc √(value x ^ 2 + value y ^ 2)
    _ ≤ |value x| + |value y| := by
      refine Real.sqrt_le_iff.2 ⟨by positivity, ?_⟩
      rw [add_sq, sq_abs, sq_abs]
      nlinarith [mul_nonneg (abs_nonneg (value x)) (abs_nonneg (value y))]
    _ ≤ 2 ^ k + 2 ^ k := add_le_add hx.abs_le hy.abs_le
    _ = 2 ^ (k + 1) := by rw [zpow_add_one₀ two_ne_zero, mul_two]

theorem Within.double {x : Float} (hx : Within 2 x) : Within 4 (2.0 * x) := by
  have hunpack : (2.0 : Float).toModel.unpack = .finite .positive (2 ^ 52) (-51) (by decide) := rfl
  exact (within_of_unpack hunpack).mul hx

end Binary64

namespace Amplitude

theorem within_arg (hT : T.Sound) {z : Amplitude T.Double} (hz : z.Within k) : Binary64.Within 2 z.arg :=
  hT.atan2 hz.2.isFinite hz.1.isFinite

end Amplitude

theorem Operator.within_stripPhase (hT : T.Sound) {u : Operator T.Double} (hu : u.Within k) (hleast : -1022 ≤ k)
    (hgreatest : k < 1023) : u.stripPhase.Within (k + 1) :=
  hu.scale (Amplitude.within_polar hT within_one (Amplitude.within_arg hT hu.u00).neg.isFinite) hleast hgreatest

theorem Sequence.eq_of_stripPhase {α : Type} [Scalar α] {u w : Operator α} (h : stripPhase u = .ok w) :
    w = u.stripPhase := by
  unfold stripPhase at h
  dsimp only at h
  split at h
  · cases h
  · cases h
    rfl

/-- Far from the largest doubles, the length of an amplitude is finite. -/
theorem Amplitude.within_norm {z : Amplitude T.Double} (hz : z.Within k) (hleast : -1022 ≤ k) (hgreatest : k < 1023) :
    Binary64.Within (k + 1) z.norm :=
  hz.1.hypot hz.2 hleast hgreatest

/-- Every angle is at most 1024 degrees. -/
structure Euler.Within (e : Euler T.Double) : Prop where
  theta : Binary64.Within 10 e.theta
  phi : Binary64.Within 10 e.phi
  lambda : Binary64.Within 10 e.lambda

theorem Euler.within_ofOperator (hT : T.Sound) {u : Operator T.Double} {e : Euler T.Double} (hu : u.Within k)
    (hleast : -1022 ≤ k) (hgreatest : k ≤ 1020) (h : ofOperator u = .ok e) : e.Within := by
  obtain ⟨v, hv, h⟩ := bind_eq_ok.1 h
  rw [Sequence.eq_of_stripPhase hv] at h
  have hstripped := Operator.within_stripPhase hT hu hleast (by omega)
  have hangle {z : Amplitude T.Double} (hz : z.Within (k + 1)) : Binary64.Within 10 (Scalar.toDegrees z.arg) :=
    within_toDegrees ((Amplitude.within_arg hT hz).mono (by decide))
  split at h
  · cases h
    exact ⟨within_zero.mono (by decide), hangle hstripped.u11, within_zero.mono (by decide)⟩
  · cases h
    have hopposite := (Amplitude.within_norm hstripped.u10 (by omega) (by omega)).isFinite
    have hadjacent := (Amplitude.within_norm hstripped.u00 (by omega) (by omega)).isFinite
    exact ⟨within_toDegrees ((hT.atan2 hopposite hadjacent).double), hangle hstripped.u10, hangle hstripped.u01.neg⟩

/-! ## Synthesized gates -/

/-- Rendering uses no trigonometry. -/
theorem Rendering.gates_double (r : Rendering) (e : Euler T.Double) (q : Qubit) :
    r.gates e q = Rendering.gates (α := Float) r e q := by
  cases r <;> rfl

theorem Rendering.validate_gates (r : Rendering) (q : Qubit) {e : Euler T.Double} (he : e.Within) :
    ∀ g ∈ r.gates e q, g.validate = .ok () := by
  have hsum := (he.lambda.add he.phi).isFinite
  rw [gates_double]
  rcases r.gates_cases q he.theta.isFinite he.phi.isFinite he.lambda.isFinite with ⟨hover, -⟩ | ⟨-, hvalid⟩
  · have hinfinite := (Euler.overflows_iff.1 hover).2
    exact absurd (hsum.symm.trans hinfinite) (by decide)
  · exact hvalid

namespace Sequence

variable {p : Profile} {q : Qubit} {gs out : List (Gate T.Double)}

/-- The product of the gates' operators is unitary, within the bound for composed operators. -/
def NetUnitary (gs : List (Gate T.Double)) : Prop := ∀ u, product .identity gs = .ok u → u.isUnitary 1e-8 = true

/-- Among the gates are few general ones, and there are not too many to be stored; or their product is unitary. -/
def Stable (gs : List (Gate T.Double)) : Prop :=
  gs.countP Gate.isGeneral ≤ 500 ∧ gs.length ≤ 2 ^ 46 ∨ NetUnitary gs

theorem stretch_le (hgeneral : gs.countP Gate.isGeneral ≤ 500) (hlength : gs.length ≤ 2 ^ 46) :
    5 * (stretch gs * 1) ≤ safe := by
  have hulp := ulp_pos
  -- Rounding errors of so many gates are bounded by `Real.exp 1`, and general gates by their number.
  have hrotations : (1 + 34 * ulp) ^ gs.length ≤ 3 := by
    have hexponent : gs.length * (34 * ulp) ≤ 1 := by
      have hcast : (gs.length : ℝ) ≤ 2 ^ 46 := by exact_mod_cast hlength
      calc gs.length * (34 * ulp)
        _ ≤ 2 ^ 46 * (34 * ulp) := by gcongr
        _ ≤ 1 := by
          rw [ulp_eq]
          norm_num
    calc (1 + 34 * ulp) ^ gs.length
      _ ≤ Real.exp (34 * ulp) ^ gs.length := by
        gcongr
        rw [add_comm]
        exact Real.add_one_le_exp _
      _ = Real.exp (gs.length * (34 * ulp)) := (Real.exp_nat_mul _ _).symm
      _ ≤ Real.exp 1 := Real.exp_le_exp.2 hexponent
      _ ≤ 3 := Real.exp_one_lt_three.le
  calc 5 * (stretch gs * 1)
    _ ≤ 5 * (4 ^ 500 * 3 * 1) := by
      rw [stretch]
      gcongr
      norm_num
    _ ≤ safe := by
      have hfour : (4 : ℝ) ^ 500 = 2 ^ (1000 : Int) := by
        rw [show (4 : ℝ) = 2 ^ 2 by norm_num, ← pow_mul, ← zpow_natCast]
        rfl
      have hsafe : safe = 2 ^ (10 : Int) * 2 ^ (1000 : Int) := by
        rw [safe_eq, ← zpow_add₀ two_ne_zero]
        rfl
      have hpos : (0 : ℝ) < 2 ^ (1000 : Int) := zpow_pos two_pos _
      rw [hsafe, hfour]
      generalize (2 : ℝ) ^ (1000 : Int) = large at hpos
      linarith

theorem Stable.within (hT : T.Sound) (hgs : Stable gs) (hv : ∀ g ∈ gs, g.validate = .ok ()) {u : Operator T.Double}
    (h : product .identity gs = .ok u) : u.Within 1010 := by
  rcases hgs with ⟨hgeneral, hlength⟩ | hunitary
  · have hlarge := stretch_le hgeneral hlength
    have hone := one_le_stretch gs
    exact (columnsWithin_product hT le_rfl hlarge Operator.columnsWithin_identity hv h).within (by linarith)
  · exact (Operator.within_of_isUnitary (hunitary u h)).mono (by decide)

/-- **Synthesized gates are valid.** -/
theorem validate_synthesize (hT : T.Sound) (hgs : Stable gs) (hv : ∀ g ∈ gs, g.validate = .ok ())
    (h : synthesize p q gs = .ok out) : ∀ g ∈ out, g.validate = .ok () := by
  simp only [synthesize, operator, bind_eq_ok] at h
  obtain ⟨u, ⟨-, -, w, hw, hu⟩, e, he, b, hb, hout⟩ := h
  have hstripped := Operator.within_stripPhase hT (hgs.within hT hv hw) (by decide) (by decide)
  rw [← eq_of_stripPhase hu] at hstripped
  have hangles := Euler.within_ofOperator hT hstripped (by decide) (by decide) he
  obtain ⟨r, -, hselect⟩ := Rendering.select_eq_ok p e q
  rw [hselect] at hb
  cases hb
  cases hout
  exact r.validate_gates q hangles

end Sequence

end RotationCircuits
