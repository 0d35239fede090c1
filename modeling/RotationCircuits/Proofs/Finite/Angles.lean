import RotationCircuits.Proofs.Angle.Wrapping
import RotationCircuits.Proofs.Shape

/-!
# Finite angles

Normalizing keeps finite angles finite, so the gates of a rendering are valid as long as the angles that are normalized
are; other angles have no normal form. Only the sum of the outer angles, taken when the middle rotation is left out, can be
infinite; the quarter turns that one of the renderings adds to the outer angles do not change that
(`isFinite_quarter_turns`).
-/

namespace RotationCircuits

open Binary64

/-! ## Angles that are not finite -/

namespace Angle

theorem within_quarterTurn : Within 7 (90.0 : Float) := by
  have hunpack : (90.0 : Float).toModel.unpack = .finite .positive (45 * 2 ^ 47) (-46) (by decide) := rfl
  exact within_of_unpack hunpack

theorem wrap_of_not_isFinite {x : Float} (hx : x.isFinite = false) : wrap x = nan := by
  have hrem : Binary64.rem x 360.0 = nan := by
    rw [isFinite_eq] at hx
    unfold Binary64.rem
    rw [unpack_turn]
    cases hu : x.toModel.unpack with
    | infinity t => rfl
    | notANumber => rfl
    | _ =>
      rw [hu] at hx
      cases hx
  rw [wrap_double_eq, hrem]
  decide

/-- Angles that are not finite have no normal form. -/
theorem normalize_of_not_isFinite {x : Float} (hx : x.isFinite = false) : normalize x = nan := by
  rw [normalize_double_eq, wrap_of_not_isFinite hx]
  decide

theorem isZero_of_not_isFinite {x : Float} (hx : x.isFinite = false) : isZero x = false := by
  rw [isZero_double_eq, wrap_of_not_isFinite hx]
  decide

end Angle

/-! ## Quarter turns on large angles -/

/-- A sum does not overflow if one operand is far from the largest doubles. -/
theorem isFinite_add_of_within {x y : Float} (hx : x.isFinite = true) (hy : y.isFinite = true)
    (h : Within 969 x ∨ Within 969 y) : (x + y).isFinite = true := by
  have hpow : (2 : ℝ) ^ (969 : Int) < 2 ^ 970 := by
    rw [← zpow_natCast]
    exact zpow_lt_zpow_right₀ one_lt_two (by decide)
  have hxlimit := abs_value_add_le_limit hx
  have hylimit := abs_value_add_le_limit hy
  refine (rounded_add hx hy).isFinite ((abs_add_le _ _).trans_lt ?_)
  rcases h with h | h
  · have hlt := h.abs_le.trans_lt hpow
    generalize (2 : ℝ) ^ 970 = step at hlt hylimit
    linarith only [hlt, hylimit]
  · have hlt := h.abs_le.trans_lt hpow
    generalize (2 : ℝ) ^ 970 = step at hlt hxlimit
    linarith only [hlt, hxlimit]

theorem isFinite_add_of_small {x y : Float} (hx : x.isFinite = true) (hy : Within 7 y) : (x + y).isFinite = true :=
  isFinite_add_of_within hx hy.isFinite (.inr (hy.mono (by decide)))

/-- A small number added to a large double is lost. -/
theorem add_eq_self_of_large {x y : Float} (hx : x.isFinite = true) (hy : Within 7 y)
    (hlarge : 2 ^ (968 : Int) ≤ |value x|) : x + y = x := by
  have hfinite := isFinite_add_of_small hx hy
  have hsmall := hy.abs_le
  have hnear := (rounded_add hx hy.isFinite).nearest hfinite x hx
  rw [sub_add_cancel_left, abs_neg] at hnear
  have hdistance : |value (x + y) - value x| ≤ 2 ^ (8 : Int) := by
    calc |value (x + y) - value x|
      _ = |value (x + y) - (value x + value y) + value y| := by ring_nf
      _ ≤ |value (x + y) - (value x + value y)| + |value y| := abs_add_le _ _
      _ ≤ 2 ^ (7 : Int) + 2 ^ (7 : Int) := add_le_add (hnear.trans hsmall) hsmall
      _ = 2 ^ (8 : Int) := by norm_num
  have hvalue : value (x + y) = value x := by
    by_contra hne
    have hspacing := le_abs_value_sub (k := 915) hx hfinite hlarge hne
    exact absurd (hspacing.trans hdistance) (zpow_lt_zpow_right₀ one_lt_two (by decide)).not_ge
  refine eq_of_value_eq hfinite hx hvalue ?_
  rw [hvalue]
  exact abs_pos.1 ((zpow_pos two_pos _).trans_le hlarge)

/-- Opposite quarter turns on two angles do not change whether their sum overflows. -/
theorem isFinite_quarter_turns {x y : Float} (hx : x.isFinite = true) (hy : y.isFinite = true) :
    (x - 90.0 + (y + 90.0)).isFinite = (x + y).isFinite := by
  have hquarter := Angle.within_quarterTurn
  have hsmall {z w : Float} (hz : z.isFinite = true) (hlt : ¬ 2 ^ (968 : Int) ≤ |value z|) (hw : Within 7 w) :
      Within 969 (z + w) ∧ Within 969 z := by
    have hwithin : Within 968 z := ⟨hz, (not_le.1 hlt).le⟩
    exact ⟨hwithin.add (hw.mono (by decide)), hwithin.mono (by decide)⟩
  rw [sub_eq_add_neg_float]
  -- A quarter turn is lost on a large angle; with a smaller one on either side no sum overflows.
  by_cases hxlarge : 2 ^ (968 : Int) ≤ |value x|
  · by_cases hylarge : 2 ^ (968 : Int) ≤ |value y|
    · rw [add_eq_self_of_large hx hquarter.neg hxlarge, add_eq_self_of_large hy hquarter hylarge]
    · obtain ⟨hsum, hself⟩ := hsmall hy hylarge hquarter
      rw [isFinite_add_of_within (isFinite_add_of_small hx hquarter.neg) hsum.isFinite (.inr hsum),
        isFinite_add_of_within hx hy (.inr hself)]
  · obtain ⟨hsum, hself⟩ := hsmall hx hxlarge hquarter.neg
    rw [isFinite_add_of_within hsum.isFinite (isFinite_add_of_small hy hquarter) (.inl hsum),
      isFinite_add_of_within hx hy (.inl hself)]

/-! ## Renderings -/

namespace Rendering

variable {axis : Axis} {q : Qubit}

theorem turn_eq_nil_iff {angle : Float} : turn axis q angle = [] ↔ Angle.isZero (Angle.normalize angle) = true := by
  unfold turn
  dsimp only
  split <;> simp_all

/-- Finite angles give valid rotations. -/
theorem validate_turn {angle : Float} (h : angle.isFinite = true) : ∀ g ∈ turn axis q angle, g.validate = .ok () := by
  intro g hg
  obtain ⟨-, rfl⟩ := mem_turn_iff.1 hg
  rw [Gate.validate_rotation_iff]
  exact (Angle.reduced_normalize h).isFinite

/-- Any other angle gives a rotation by something that is not a number. -/
theorem turn_of_not_isFinite {angle : Float} (h : angle.isFinite = false) :
    turn axis q angle = [.rotation axis q nan] := by
  have hzero : Angle.isZero nan = false := Angle.isZero_of_not_isFinite (by decide)
  unfold turn
  dsimp only
  rw [Angle.normalize_of_not_isFinite h, hzero]
  rfl

/-- Around a middle rotation that stays, finite angles give valid gates. Without it the outer angles are added. -/
theorem sandwich_cases (axis : Axis) (q : Qubit) {first mid last : Float} (hfirst : first.isFinite = true)
    (hmid : mid.isFinite = true) (hlast : last.isFinite = true) :
    Angle.isZero (Angle.normalize mid) = true ∧ (first + last).isFinite = false ∧
        sandwich axis q first mid last = [.rotation .z q nan] ∨
      ¬ (Angle.isZero (Angle.normalize mid) = true ∧ (first + last).isFinite = false) ∧
        ∀ g ∈ sandwich axis q first mid last, g.validate = .ok () := by
  rcases sandwich_eq axis q first mid last with ⟨hnil, h⟩ | ⟨hne, h⟩
  · rw [turn_eq_nil_iff] at hnil
    have h : sandwich axis q first mid last = turn .z q (first + last : Float) := h
    cases hsum : (first + last : Float).isFinite with
    | false => exact .inl ⟨hnil, rfl, h.trans (turn_of_not_isFinite hsum)⟩
    | true =>
      refine .inr ⟨fun hboth => Bool.noConfusion hboth.2, ?_⟩
      rw [h]
      exact validate_turn hsum
  · rw [Ne, turn_eq_nil_iff] at hne
    refine .inr ⟨fun hboth => hne hboth.1, ?_⟩
    rw [h]
    simp only [List.forall_mem_append]
    exact ⟨⟨validate_turn hfirst, validate_turn hmid⟩, validate_turn hlast⟩

end Rendering

/-- The middle rotation of a rendering would be left out, and the sum of the outer angles is not finite. -/
def Euler.overflows (e : Euler Float) : Bool := Angle.isZero (Angle.normalize e.theta) && !(e.lambda + e.phi).isFinite

theorem Euler.overflows_iff {e : Euler Float} :
    e.overflows = true ↔ Angle.isZero (Angle.normalize e.theta) = true ∧ (e.lambda + e.phi).isFinite = false := by
  rw [Euler.overflows, Bool.and_eq_true, Bool.not_eq_true']

/-- Finite angles are rendered as valid gates, except where they overflow. -/
theorem Rendering.gates_cases (r : Rendering) (q : Qubit) {e : Euler Float} (htheta : e.theta.isFinite = true)
    (hphi : e.phi.isFinite = true) (hlambda : e.lambda.isFinite = true) :
    e.overflows = true ∧ r.gates e q = [.rotation .z q nan] ∨
      e.overflows = false ∧ ∀ g ∈ r.gates e q, g.validate = .ok () := by
  rw [← Bool.not_eq_true, Euler.overflows_iff]
  have hquarter := Angle.within_quarterTurn
  cases r with
  | zyz =>
    rcases sandwich_cases .y q hlambda htheta hphi with ⟨hzero, hsum, h⟩ | h
    · exact .inl ⟨⟨hzero, hsum⟩, h⟩
    · exact .inr h
  | zxz =>
    have hfirst : (e.lambda - 90.0).isFinite = true := by
      rw [sub_eq_add_neg_float]
      exact isFinite_add_of_small hlambda hquarter.neg
    rw [← isFinite_quarter_turns hlambda hphi]
    rcases sandwich_cases .x q hfirst htheta (isFinite_add_of_small hphi hquarter) with ⟨hzero, hsum, h⟩ | h
    · exact .inl ⟨⟨hzero, hsum⟩, h⟩
    · exact .inr h

end RotationCircuits
