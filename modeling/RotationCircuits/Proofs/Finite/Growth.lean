import RotationCircuits.Proofs.Binary64.Error
import RotationCircuits.Proofs.Finite.Angles
import RotationCircuits.Sequence.Optimize

/-!
# Growth of net operators

Nothing is known about the sine, the cosine and the angle of a point that a machine computes, so they are parameters here
(`Trigonometry`), of which only the range is assumed (`Trigonometry.Sound`). A rotation then hardly changes the length of the
columns of an operator, whatever rounding does to them; a general gate, whose angles are added before they are used, makes
them at most four times as long (`Sequence.columnsWithin_product`).
-/

namespace RotationCircuits

open Hardware (Profile)

/-- Sine, cosine and the angle of a point, as some machine computes them. -/
structure Trigonometry where
  sin : Float → Float
  cos : Float → Float
  atan2 : Float → Float → Float

namespace Trigonometry

/-- The doubles of a machine with these functions. -/
def Double (_ : Trigonometry) : Type := Float

instance (T : Trigonometry) : Scalar T.Double :=
  { (inferInstance : Scalar Float) with
    sin := T.sin
    cos := T.cos
    atan2 := T.atan2 }

instance (T : Trigonometry) : DecidableEq T.Double := inferInstanceAs (DecidableEq Float)

/-- The functions that `Float` comes with. -/
def native : Trigonometry := ⟨Float.sin, Float.cos, Float.atan2⟩

example : (inferInstance : Scalar native.Double) = (inferInstance : Scalar Float) := rfl

/-- Sine and cosine are at most 1 and give a point near the unit circle; the angle of a point is at most half a turn, with
room for rounding. -/
structure Sound (T : Trigonometry) : Prop where
  sin {x : Float} : x.isFinite = true → Binary64.Within 0 (T.sin x)
  cos {x : Float} : x.isFinite = true → Binary64.Within 0 (T.cos x)
  circle {x : Float} : x.isFinite = true →
    Binary64.value (T.cos x) ^ 2 + Binary64.value (T.sin x) ^ 2 ≤ 1 + 4 * Binary64.ulp
  atan2 {y x : Float} : y.isFinite = true → x.isFinite = true → Binary64.Within 2 (T.atan2 y x)

end Trigonometry

variable {T : Trigonometry} {j k : Int}

/-! ## Constants -/

namespace Binary64

theorem within_zero : Within 0 (0.0 : Float) := by
  have hunpack : (0.0 : Float).toModel.unpack = .zero .positive := rfl
  refine ⟨rfl, ?_⟩
  rw [value_of_zero hunpack, abs_zero]
  norm_num

theorem value_one : value (1.0 : Float) = 1 := by
  have hunpack : (1.0 : Float).toModel.unpack = .finite .positive (2 ^ 52) (-52) (by decide) := rfl
  rw [value_of_unpack hunpack, valueOf_finite, signed]
  norm_num

theorem within_one : Within 0 (1.0 : Float) := by
  refine ⟨rfl, ?_⟩
  rw [value_one, abs_one]
  norm_num

/-- Multiplication by 1 is exact. -/
theorem value_one_mul {x : Float} (hx : x.isFinite = true) : value (1.0 * x) = value x := by
  have hround := rounded_mul within_one.isFinite hx
  rw [value_one, one_mul] at hround
  have hnear := hround.nearest (hround.isFinite_of_le hx le_rfl) x hx
  rw [sub_self, abs_zero] at hnear
  exact sub_eq_zero.1 (abs_nonpos_iff.1 hnear)

/-- Half of a finite double is finite. -/
theorem isFinite_half {x : Float} (hx : x.isFinite = true) : (x / 2.0).isFinite = true := by
  have hunpack : (2.0 : Float).toModel.unpack = .finite .positive (2 ^ 52) (-51) (by decide) := rfl
  have htwo : value (2.0 : Float) = 2 := by
    rw [value_of_unpack hunpack, valueOf_finite, signed]
    norm_num
  have hround := rounded_div hx (rfl : (2.0 : Float).isFinite = true) (value_ne_zero_of_unpack hunpack)
  refine hround.isFinite_of_le hx ?_
  rw [htwo, abs_div, abs_two]
  exact half_le_self (abs_nonneg _)

theorem within_toRadians {x : Float} (hx : x.isFinite = true) : Within 1019 (Scalar.toRadians x) := by
  have hunpack : ∃ m hpos, ((3.141592653589793 : Float) / 180.0).toModel.unpack = .finite .positive m (-58) hpos :=
    ⟨_, _, rfl⟩
  obtain ⟨m, hpos, hunpack⟩ := hunpack
  exact (within_of_isFinite hx).mul (within_of_unpack hunpack)

end Binary64

open Binary64

/-- A machine on which every angle has the sine and the cosine of zero. -/
def Trigonometry.flat : Trigonometry := ⟨fun _ => 0.0, fun _ => 1.0, fun _ _ => 0.0⟩

theorem Trigonometry.sound_flat : flat.Sound where
  sin _ := within_zero
  cos _ := within_one
  circle _ := by
    have hulp := ulp_pos
    change value (1.0 : Float) ^ 2 + value (0.0 : Float) ^ 2 ≤ 1 + 4 * ulp
    rw [value_one, value_zero]
    linarith
  atan2 _ _ := within_zero.mono (by decide)

/-! ## Amplitudes and operators -/

namespace Amplitude

/-- Both parts are at most a power of two. -/
def Within (k : Int) (z : Amplitude T.Double) : Prop := Binary64.Within k z.re ∧ Binary64.Within k z.im

variable {z w : Amplitude T.Double}

theorem Within.mono (h : z.Within j) (hjk : j ≤ k) : z.Within k := ⟨h.1.mono hjk, h.2.mono hjk⟩

theorem Within.neg (h : z.Within k) : (-z).Within k := ⟨h.1.neg, h.2.neg⟩

theorem Within.mul (hz : z.Within j) (hw : w.Within k) (hleast : -1022 ≤ j + k) (hgreatest : j + k < 1023) :
    (z * w).Within (j + k + 1) :=
  ⟨(hz.1.mul hw.1 hleast (by omega)).sub (hz.2.mul hw.2 hleast (by omega)) hleast hgreatest,
    (hz.1.mul hw.2 hleast (by omega)).add (hz.2.mul hw.1 hleast (by omega)) hleast hgreatest⟩

theorem within_polar (hT : T.Sound) {r t : T.Double} (hr : Binary64.Within 0 r) (ht : Float.isFinite t = true) :
    (polar r t).Within 0 :=
  ⟨hr.mul (hT.cos ht), hr.mul (hT.sin ht)⟩

end Amplitude

namespace Operator

/-- All entries are at most a power of two. -/
structure Within (k : Int) (u : Operator T.Double) : Prop where
  u00 : u.u00.Within k
  u01 : u.u01.Within k
  u10 : u.u10.Within k
  u11 : u.u11.Within k

variable {u v : Operator T.Double}

theorem Within.mono (hu : u.Within j) (hjk : j ≤ k) : u.Within k :=
  ⟨hu.u00.mono hjk, hu.u01.mono hjk, hu.u10.mono hjk, hu.u11.mono hjk⟩

theorem Within.scale (hu : u.Within k) {z : Amplitude T.Double} (hz : z.Within 0) (hleast : -1022 ≤ k)
    (hgreatest : k < 1023) : (u.scale z).Within (k + 1) := by
  have hentry {a : Amplitude T.Double} (ha : a.Within k) : (a * z).Within (k + 1) := by
    have hproduct := ha.mul hz (by omega) (by omega)
    rwa [add_zero] at hproduct
  exact ⟨hentry hu.u00, hentry hu.u01, hentry hu.u10, hentry hu.u11⟩

section Gates

variable (hT : T.Sound)

include hT

theorem within_rx {a : T.Double} (ha : Float.isFinite a = true) : (rx a).Within 0 := by
  have hc := hT.cos (isFinite_half ha)
  have hs := hT.sin (isFinite_half ha)
  exact ⟨⟨hc, within_zero⟩, ⟨within_zero, hs.neg⟩, ⟨within_zero, hs.neg⟩, ⟨hc, within_zero⟩⟩

theorem within_ry {a : T.Double} (ha : Float.isFinite a = true) : (ry a).Within 0 := by
  have hc := hT.cos (isFinite_half ha)
  have hs := hT.sin (isFinite_half ha)
  exact ⟨⟨hc, within_zero⟩, ⟨hs.neg, within_zero⟩, ⟨hs, within_zero⟩, ⟨hc, within_zero⟩⟩

theorem within_rz {a : T.Double} (ha : Float.isFinite a = true) : (rz a).Within 0 := by
  have hneg := (within_of_isFinite ha).neg.isFinite
  exact ⟨Amplitude.within_polar hT within_one (isFinite_half hneg), ⟨within_zero, within_zero⟩,
    ⟨within_zero, within_zero⟩, Amplitude.within_polar hT within_one (isFinite_half ha)⟩

theorem within_general {a b c : T.Double} (ha : Float.isFinite a = true) (hb : Binary64.Within 1019 b)
    (hc : Binary64.Within 1019 c) : (general a b c).Within 0 := by
  have hcos := hT.cos (isFinite_half ha)
  have hsin := hT.sin (isFinite_half ha)
  exact ⟨⟨hcos, within_zero⟩, (Amplitude.within_polar hT hsin hc.isFinite).neg,
    Amplitude.within_polar hT hsin hb.isFinite, Amplitude.within_polar hT hcos (hb.add hc).isFinite⟩

/-- The entries of a valid gate are at most 1. -/
theorem within_of_operator? {g : Gate T.Double} (hv : g.validate = .ok ()) (h : g.operator? = some u) : u.Within 0 := by
  cases g with
  | cx control target => cases h
  | rotation axis q θ =>
    have hθ : Float.isFinite θ = true := Gate.validate_rotation_iff.1 hv
    have hrad := (within_toRadians hθ).isFinite
    cases axis <;> cases h
    · exact within_rx hT hrad
    · exact within_ry hT hrad
    · exact within_rz hT hrad
  | general q e =>
    have hangles := (Gate.validate_eq_ok_iff (fun c t h => by cases h)).1 hv
    simp only [Gate.angles, List.forall_mem_cons] at hangles
    obtain ⟨htheta, hphi, hlambda, -⟩ := hangles
    cases h
    exact within_general hT (within_toRadians htheta).isFinite (within_toRadians hphi) (within_toRadians hlambda)

end Gates

end Operator

/-! ## Amplitudes next to complex numbers -/

namespace Amplitude

/-- The complex number that an amplitude stands for. -/
noncomputable def complex (z : Amplitude T.Double) : ℂ := ⟨value z.re, value z.im⟩

theorem complex_real (x : T.Double) : complex ⟨x, 0.0⟩ = value x := by
  have hzero : value (0.0 : T.Double) = 0 := value_zero
  exact Complex.ext rfl hzero

theorem complex_zero : (zero : Amplitude T.Double).complex = 0 := by
  have hzero : value (0.0 : T.Double) = 0 := value_zero
  exact Complex.ext hzero hzero

theorem complex_one : (one : Amplitude T.Double).complex = 1 := by
  have hone : value (1.0 : T.Double) = 1 := value_one
  rw [one, complex_real, hone, Complex.ofReal_one]

theorem complex_neg_real (x : T.Double) : complex ⟨-x, 0.0⟩ = -value x := by
  have hneg : value (-x : T.Double) = -value x := value_neg x
  rw [complex_real, hneg, Complex.ofReal_neg]

theorem complex_neg_imaginary (x : T.Double) : complex ⟨0.0, -x⟩ = -(value x * Complex.I) := by
  have hzero : value (0.0 : T.Double) = 0 := value_zero
  refine Complex.ext (hzero.trans ?_) ((value_neg x).trans ?_) <;> simp

/-- Both parts are at most `d` away from those of a complex number, which are at most `c`. -/
structure Near (d c : ℝ) (v : ℂ) (z : Amplitude T.Double) : Prop where
  re : Binary64.Near d c v.re z.re
  im : Binary64.Near d c v.im z.im

variable {b : ℝ} {m n z w : Amplitude T.Double} {u v : ℂ}

theorem near_mul (hm : m.Within 0) (hz : z.Near 0 b v) (hb : 1 ≤ b) (hlarge : 3 * b ≤ safe) :
    (m * z).Near (5 * (ulp * b)) (2 * b) (m.complex * v) := by
  have hulp := ulp_mul_le (zero_le_one.trans hb)
  have hproduct {x y : Float} {v : ℝ} (hx : Binary64.Within 0 x) (hy : Binary64.Near 0 b v y) :=
    Binary64.near_mul hx hy hb (by linarith)
  have hre := (hproduct hm.1 hz.re).sub (hproduct hm.2 hz.im) (b := 3 * b) (by linarith) (by linarith) hlarge
  have him := (hproduct hm.1 hz.im).add (hproduct hm.2 hz.re) (b := 3 * b) (by linarith) (by linarith) hlarge
  rw [show ulp * b + ulp * b + ulp * (3 * b) = 5 * (ulp * b) by ring, ← two_mul] at hre him
  exact ⟨hre, him⟩

/-- An entry of a product: the sum of two products. -/
theorem near_mul_add_mul (hm : m.Within 0) (hn : n.Within 0) (hz : z.Near 0 b u) (hw : w.Near 0 b v) (hb : 1 ≤ b)
    (hlarge : 5 * b ≤ safe) :
    (m * z + n * w).Near (15 * (ulp * b)) (4 * b) (m.complex * u + n.complex * v) := by
  have hulp := ulp_mul_le (zero_le_one.trans hb)
  have hmz := near_mul hm hz hb (by linarith)
  have hnw := near_mul hn hw hb (by linarith)
  have hre := hmz.re.add hnw.re (b := 5 * b) (by linarith) (by linarith) hlarge
  have him := hmz.im.add hnw.im (b := 5 * b) (by linarith) (by linarith) hlarge
  rw [show 5 * (ulp * b) + 5 * (ulp * b) + ulp * (5 * b) = 15 * (ulp * b) by ring,
    show 2 * b + 2 * b = 4 * b by ring] at hre him
  exact ⟨hre, him⟩

theorem Near.norm_sub_le {d c : ℝ} (h : z.Near d c v) : ‖z.complex - v‖ ^ 2 ≤ 2 * d ^ 2 := by
  rw [Complex.sq_norm, Complex.normSq_apply, Complex.sub_re, Complex.sub_im, ← sq, ← sq]
  have hre := sq_le_sq' (abs_le.1 h.re.abs_sub_le).1 (abs_le.1 h.re.abs_sub_le).2
  have him := sq_le_sq' (abs_le.1 h.im.abs_sub_le).1 (abs_le.1 h.im.abs_sub_le).2
  change (value z.re - v.re) ^ 2 + (value z.im - v.im) ^ 2 ≤ 2 * d ^ 2
  linarith

end Amplitude

/-! ## Columns -/

/-- The Euclidean length of a column of two complex numbers. -/
noncomputable def length (v : ℂ × ℂ) : ℝ := √(‖v.1‖ ^ 2 + ‖v.2‖ ^ 2)

theorem length_eq_norm (v : ℂ × ℂ) : length v = ‖WithLp.toLp 2 v‖ := (WithLp.prod_norm_eq_of_L2 _).symm

theorem length_nonneg (v : ℂ × ℂ) : 0 ≤ length v := Real.sqrt_nonneg _

theorem length_sq (v : ℂ × ℂ) : length v ^ 2 = ‖v.1‖ ^ 2 + ‖v.2‖ ^ 2 := Real.sq_sqrt (by positivity)

theorem length_le_length_sub_add (v w : ℂ × ℂ) : length v ≤ length (v - w) + length w := by
  rw [length_eq_norm, length_eq_norm, length_eq_norm, WithLp.toLp_sub]
  exact norm_le_norm_sub_add _ _

theorem length_le_iff {v : ℂ × ℂ} {b : ℝ} (hb : 0 ≤ b) : length v ≤ b ↔ ‖v.1‖ ^ 2 + ‖v.2‖ ^ 2 ≤ b ^ 2 :=
  Real.sqrt_le_left hb

theorem norm_le_length (v : ℂ × ℂ) : ‖v.1‖ ≤ length v ∧ ‖v.2‖ ≤ length v :=
  ⟨Real.le_sqrt_of_sq_le (le_add_of_nonneg_right (sq_nonneg _)),
    Real.le_sqrt_of_sq_le (le_add_of_nonneg_left (sq_nonneg _))⟩

variable {b g : ℝ} {z w : Amplitude T.Double}

/-- The numbers of a column are finite, and its length is at most `b`. -/
structure ColumnWithin (b : ℝ) (z w : Amplitude T.Double) : Prop where
  left : Float.isFinite z.re = true ∧ Float.isFinite z.im = true
  right : Float.isFinite w.re = true ∧ Float.isFinite w.im = true
  length_le : length (z.complex, w.complex) ≤ b

theorem Amplitude.near_complex (hfinite : Float.isFinite z.re = true ∧ Float.isFinite z.im = true) (hz : ‖z.complex‖ ≤ b) :
    z.Near 0 b z.complex :=
  ⟨⟨hfinite.1, (abs_nonpos_iff.2 (sub_self _)), (Complex.abs_re_le_norm _).trans hz⟩,
    ⟨hfinite.2, (abs_nonpos_iff.2 (sub_self _)), (Complex.abs_im_le_norm _).trans hz⟩⟩

theorem ColumnWithin.near (h : ColumnWithin b z w) : z.Near 0 b z.complex ∧ w.Near 0 b w.complex := by
  obtain ⟨hz, hw⟩ := norm_le_length (z.complex, w.complex)
  exact ⟨Amplitude.near_complex h.left (hz.trans h.length_le), Amplitude.near_complex h.right (hw.trans h.length_le)⟩

namespace Operator

/-- An operator on columns of complex numbers. -/
noncomputable def applied (v : Operator T.Double) (z w : ℂ) : ℂ × ℂ :=
  (v.u00.complex * z + v.u01.complex * w, v.u10.complex * z + v.u11.complex * w)

/-- The entries are at most 1, and columns get at most `g` times as long. -/
structure Grows (g : ℝ) (v : Operator T.Double) : Prop where
  within : v.Within 0
  length_le (z w : ℂ) : length (v.applied z w) ≤ g * length (z, w)

/-- Rounding makes a column only a little longer. -/
theorem Grows.columnWithin {v : Operator T.Double} (hv : v.Grows g) (hg : 0 ≤ g) (h : ColumnWithin b z w) (hb : 1 ≤ b)
    (hlarge : 5 * b ≤ safe) :
    ColumnWithin ((g + 30 * ulp) * b) (v.u00 * z + v.u01 * w) (v.u10 * z + v.u11 * w) := by
  obtain ⟨hz, hw⟩ := h.near
  have htop := Amplitude.near_mul_add_mul hv.within.u00 hv.within.u01 hz hw hb hlarge
  have hbottom := Amplitude.near_mul_add_mul hv.within.u10 hv.within.u11 hz hw hb hlarge
  refine ⟨⟨htop.re.isFinite, htop.im.isFinite⟩, ⟨hbottom.re.isFinite, hbottom.im.isFinite⟩, ?_⟩
  have herror : length (((v.u00 * z + v.u01 * w).complex, (v.u10 * z + v.u11 * w).complex) -
      v.applied z.complex w.complex) ≤ 30 * (ulp * b) := by
    have hulp := mul_nonneg ulp_pos.le (zero_le_one.trans hb)
    rw [applied, Prod.mk_sub_mk, length_le_iff (by positivity)]
    have := htop.norm_sub_le
    have := hbottom.norm_sub_le
    nlinarith
  calc length ((v.u00 * z + v.u01 * w).complex, (v.u10 * z + v.u11 * w).complex)
    _ ≤ 30 * (ulp * b) + length (v.applied z.complex w.complex) :=
      (length_le_length_sub_add _ _).trans (add_le_add_left herror _)
    _ ≤ 30 * (ulp * b) + g * b := by
      have := (hv.length_le z.complex w.complex).trans (mul_le_mul_of_nonneg_left h.length_le hg)
      gcongr
    _ = (g + 30 * ulp) * b := by ring

theorem one_le_growth : 1 ≤ 1 + 4 * ulp := le_add_of_nonneg_right (mul_nonneg (by norm_num) ulp_pos.le)

/-- With the cosine and the sine in the places of a rotation, columns are scaled by the length of that point. -/
theorem length_applied_x {v : Operator T.Double} {c s : ℝ} (h00 : v.u00.complex = c) (h01 : v.u01.complex = -(s * Complex.I))
    (h10 : v.u10.complex = -(s * Complex.I)) (h11 : v.u11.complex = c) (z w : ℂ) :
    length (v.applied z w) ^ 2 = (c ^ 2 + s ^ 2) * length (z, w) ^ 2 := by
  rw [applied, length_sq, length_sq, h00, h01, h10, h11]
  simp only [Complex.sq_norm, Complex.normSq_apply, Complex.add_re, Complex.add_im, Complex.neg_re, Complex.neg_im,
    Complex.mul_re, Complex.mul_im, Complex.ofReal_re, Complex.ofReal_im, Complex.I_re, Complex.I_im]
  ring

theorem length_applied_y {v : Operator T.Double} {c s : ℝ} (h00 : v.u00.complex = c) (h01 : v.u01.complex = -s)
    (h10 : v.u10.complex = s) (h11 : v.u11.complex = c) (z w : ℂ) :
    length (v.applied z w) ^ 2 = (c ^ 2 + s ^ 2) * length (z, w) ^ 2 := by
  rw [applied, length_sq, length_sq, h00, h01, h10, h11]
  simp only [Complex.sq_norm, Complex.normSq_apply, Complex.add_re, Complex.add_im, Complex.neg_re, Complex.neg_im,
    Complex.mul_re, Complex.mul_im, Complex.ofReal_re, Complex.ofReal_im]
  ring

theorem length_applied_z {v : Operator T.Double} (h01 : v.u01.complex = 0) (h10 : v.u10.complex = 0) (z w : ℂ) :
    length (v.applied z w) ^ 2 = ‖v.u00.complex‖ ^ 2 * ‖z‖ ^ 2 + ‖v.u11.complex‖ ^ 2 * ‖w‖ ^ 2 := by
  rw [applied, h01, h10, zero_mul, zero_mul, add_zero, zero_add, length_sq, norm_mul, norm_mul, mul_pow, mul_pow]

theorem grows_of_sq {v : Operator T.Double} (hv : v.Within 0) (hg : 1 ≤ g)
    (h : ∀ z w : ℂ, length (v.applied z w) ^ 2 ≤ g * length (z, w) ^ 2) : v.Grows g := by
  refine ⟨hv, fun z w => ?_⟩
  have hnonneg := length_nonneg (z, w)
  rw [← pow_le_pow_iff_left₀ (length_nonneg _) (by positivity) two_ne_zero, mul_pow]
  refine (h z w).trans ?_
  gcongr
  exact le_self_pow₀ hg two_ne_zero

section Gates

variable (hT : T.Sound)

include hT

theorem grows_rx {a : T.Double} (ha : Float.isFinite a = true) : (rx a).Grows (1 + 4 * ulp) := by
  refine grows_of_sq (within_rx hT ha) one_le_growth fun z w => ?_
  rw [length_applied_x (v := rx a) (Amplitude.complex_real _) (Amplitude.complex_neg_imaginary _)
    (Amplitude.complex_neg_imaginary _) (Amplitude.complex_real _)]
  exact mul_le_mul_of_nonneg_right (hT.circle (isFinite_half ha)) (sq_nonneg _)

theorem grows_ry {a : T.Double} (ha : Float.isFinite a = true) : (ry a).Grows (1 + 4 * ulp) := by
  refine grows_of_sq (within_ry hT ha) one_le_growth fun z w => ?_
  rw [length_applied_y (v := ry a) (Amplitude.complex_real _) (Amplitude.complex_neg_real _) (Amplitude.complex_real _)
    (Amplitude.complex_real _)]
  exact mul_le_mul_of_nonneg_right (hT.circle (isFinite_half ha)) (sq_nonneg _)

theorem norm_polar_one {t : T.Double} (ht : Float.isFinite t = true) :
    ‖(Amplitude.polar 1.0 t).complex‖ ^ 2 ≤ 1 + 4 * ulp := by
  have hcos : (Amplitude.polar 1.0 t).complex.re = value (T.cos t) := value_one_mul (hT.cos ht).isFinite
  have hsin : (Amplitude.polar 1.0 t).complex.im = value (T.sin t) := value_one_mul (hT.sin ht).isFinite
  rw [Complex.sq_norm, Complex.normSq_apply, hcos, hsin, ← sq, ← sq]
  exact hT.circle ht

theorem grows_rz {a : T.Double} (ha : Float.isFinite a = true) : (rz a).Grows (1 + 4 * ulp) := by
  refine grows_of_sq (within_rz hT ha) one_le_growth fun z w => ?_
  have hfirst := norm_polar_one hT (isFinite_half (within_of_isFinite ha).neg.isFinite)
  have hlast := norm_polar_one hT (isFinite_half ha)
  rw [length_applied_z (v := rz a) Amplitude.complex_zero Amplitude.complex_zero, length_sq, mul_add]
  exact add_le_add (mul_le_mul_of_nonneg_right hfirst (sq_nonneg _)) (mul_le_mul_of_nonneg_right hlast (sq_nonneg _))

end Gates

/-- Entries of at most 1 make columns at most three times as long. -/
theorem grows_of_within {v : Operator T.Double} (hv : v.Within 0) : v.Grows 3 := by
  refine ⟨hv, fun z w => ?_⟩
  have hentry {m : Amplitude T.Double} (hm : m.Within 0) : ‖m.complex‖ ^ 2 ≤ 2 := by
    have hre : value m.re ^ 2 ≤ 1 := (sq_le_one_iff_abs_le_one _).2 (hm.1.abs_le.trans_eq (zpow_zero 2))
    have him : value m.im ^ 2 ≤ 1 := (sq_le_one_iff_abs_le_one _).2 (hm.2.abs_le.trans_eq (zpow_zero 2))
    rw [Complex.sq_norm, Complex.normSq_apply, ← sq, ← sq]
    exact (add_le_add hre him).trans_eq (by norm_num)
  -- Cauchy and Schwarz, for a row of the operator and the column.
  have hrow {m n : Amplitude T.Double} (hm : m.Within 0) (hn : n.Within 0) :
      ‖m.complex * z + n.complex * w‖ ^ 2 ≤ 4 * length (z, w) ^ 2 := by
    calc ‖m.complex * z + n.complex * w‖ ^ 2
      _ ≤ (‖m.complex‖ * ‖z‖ + ‖n.complex‖ * ‖w‖) ^ 2 := by
        rw [← norm_mul, ← norm_mul]
        gcongr
        exact norm_add_le _ _
      _ ≤ (‖m.complex‖ ^ 2 + ‖n.complex‖ ^ 2) * (‖z‖ ^ 2 + ‖w‖ ^ 2) := by
        linarith [sq_nonneg (‖m.complex‖ * ‖w‖ - ‖n.complex‖ * ‖z‖)]
      _ ≤ 4 * length (z, w) ^ 2 := by
        rw [length_sq]
        gcongr
        linarith [hentry hm, hentry hn]
  have htop := hrow hv.u00 hv.u01
  have hbottom := hrow hv.u10 hv.u11
  have hnonneg := length_nonneg (z, w)
  rw [applied, length_le_iff (by positivity)]
  linarith [sq_nonneg (length (z, w))]

/-- Both columns have at most the given length. -/
structure ColumnsWithin (b : ℝ) (u : Operator T.Double) : Prop where
  first : ColumnWithin b u.u00 u.u10
  second : ColumnWithin b u.u01 u.u11

theorem columnsWithin_identity : (identity : Operator T.Double).ColumnsWithin 1 := by
  refine ⟨⟨⟨within_one.isFinite, within_zero.isFinite⟩, ⟨within_zero.isFinite, within_zero.isFinite⟩, ?_⟩,
    ⟨⟨within_zero.isFinite, within_zero.isFinite⟩, ⟨within_one.isFinite, within_zero.isFinite⟩, ?_⟩⟩
  · simp [identity, length_le_iff, Amplitude.complex_zero, Amplitude.complex_one]
  · simp [identity, length_le_iff, Amplitude.complex_zero, Amplitude.complex_one]

theorem Grows.columnsWithin {u v : Operator T.Double} (hv : v.Grows g) (hg : 0 ≤ g) (hu : u.ColumnsWithin b) (hb : 1 ≤ b)
    (hlarge : 5 * b ≤ safe) : (v * u).ColumnsWithin ((g + 30 * ulp) * b) :=
  ⟨hv.columnWithin hg hu.first hb hlarge, hv.columnWithin hg hu.second hb hlarge⟩

theorem ColumnsWithin.mono {u : Operator T.Double} {c : ℝ} (hu : u.ColumnsWithin b) (hbc : b ≤ c) : u.ColumnsWithin c :=
  ⟨⟨hu.first.left, hu.first.right, hu.first.length_le.trans hbc⟩,
    ⟨hu.second.left, hu.second.right, hu.second.length_le.trans hbc⟩⟩

theorem ColumnsWithin.within {u : Operator T.Double} (hu : u.ColumnsWithin b) (hb : b ≤ safe) : u.Within 1010 := by
  rw [safe_eq] at hb
  have hentry {z : Amplitude T.Double} (hz : z.Near 0 b z.complex) : z.Within 1010 :=
    ⟨⟨hz.re.isFinite, hz.re.abs_le.trans hb⟩, ⟨hz.im.isFinite, hz.im.abs_le.trans hb⟩⟩
  exact ⟨hentry hu.first.near.1, hentry hu.second.near.1, hentry hu.first.near.2, hentry hu.second.near.2⟩

end Operator

namespace Sequence

variable {gs : List (Gate T.Double)}

/-- How much longer gates make the columns of an operator, errors of rounding included. -/
noncomputable def stretch (gs : List (Gate T.Double)) : ℝ := 4 ^ gs.countP Gate.isGeneral * (1 + 34 * ulp) ^ gs.length

theorem stretch_cons (g : Gate T.Double) (gs : List (Gate T.Double)) : stretch (g :: gs) = stretch gs * stretch [g] := by
  rw [← List.singleton_append, stretch, List.countP_append, List.length_append, pow_add, pow_add, stretch, stretch]
  ring

theorem one_le_stretch (gs : List (Gate T.Double)) : 1 ≤ stretch gs := by
  have hulp := ulp_pos
  exact one_le_mul_of_one_le_of_one_le (one_le_pow₀ (by norm_num)) (one_le_pow₀ (by linarith))

/-- One gate. -/
theorem columnsWithin_step (hT : T.Sound) {g : Gate T.Double} {u v : Operator T.Double} (hvalid : g.validate = .ok ())
    (hv : g.operator? = some v) (hb : 1 ≤ b) (hlarge : 5 * b ≤ safe) (hu : u.ColumnsWithin b) :
    (v * u).ColumnsWithin (stretch [g] * b) := by
  have hulp := ulp_pos
  have hwithin := Operator.within_of_operator? hT hvalid hv
  cases g with
  | cx control target => cases hv
  | rotation axis q θ =>
    have hstretch : stretch [(.rotation axis q θ : Gate T.Double)] = 1 + 4 * ulp + 30 * ulp := by
      simp only [stretch, Gate.isGeneral, List.countP_singleton, List.length_singleton, Bool.false_eq_true, if_false,
        pow_zero, pow_one]
      ring
    rw [hstretch]
    refine Operator.Grows.columnsWithin ?_ (by linarith) hu hb hlarge
    have hθ : Float.isFinite θ = true := Gate.validate_rotation_iff.1 hvalid
    have hrad := (within_toRadians hθ).isFinite
    cases axis <;> cases hv
    · exact Operator.grows_rx hT hrad
    · exact Operator.grows_ry hT hrad
    · exact Operator.grows_rz hT hrad
  | general q e =>
    refine ((Operator.grows_of_within hwithin).columnsWithin (by norm_num) hu hb hlarge).mono ?_
    have hstretch : stretch [(.general q e : Gate T.Double)] = 4 * (1 + 34 * ulp) := by simp [stretch, Gate.isGeneral]
    rw [hstretch]
    gcongr
    linarith

/-- **Gates hardly stretch a net operator** unless they are general ones. -/
theorem columnsWithin_product (hT : T.Sound) {u w : Operator T.Double} (hb : 1 ≤ b) (hlarge : 5 * (stretch gs * b) ≤ safe)
    (hu : u.ColumnsWithin b) (hv : ∀ g ∈ gs, g.validate = .ok ()) (h : product u gs = .ok w) :
    w.ColumnsWithin (stretch gs * b) := by
  -- The bound is generalized: the first gate has stretched it when the others are applied.
  induction gs generalizing u b with
  | nil =>
    cases h
    simpa [stretch] using hu
  | cons g gs ih =>
    rw [List.forall_mem_cons] at hv
    rw [stretch_cons, mul_assoc] at hlarge ⊢
    have hone : 1 ≤ stretch [g] * b := one_le_mul_of_one_le_of_one_le (one_le_stretch _) hb
    cases hg : g.operator? with
    | none =>
      rw [product, hg] at h
      cases h
    | some v =>
      rw [product, hg] at h
      refine ih hone hlarge (columnsWithin_step hT hv.1 hg hb ?_ hu) hv.2 h
      have hfirst : b ≤ stretch [g] * b := le_mul_of_one_le_left (by linarith) (one_le_stretch _)
      have hrest : stretch [g] * b ≤ stretch gs * (stretch [g] * b) :=
        le_mul_of_one_le_left (by linarith) (one_le_stretch _)
      linarith

end Sequence

end RotationCircuits
