import RotationCircuits.Proofs.Angle.ZeroTest

/-!
# Normalized angles in doubles

Every finite angle is normalized to a finite one in `(-180, 180]` that differs from it by whole turns and at most `2 ^ (-45)`.
Normalizing again changes nothing, not even a bit, and the normalized angle is taken as zero exactly if the angle is. So the
rotations of a rendering are all reduced and none of them is by zero, as long as the sum of the outer angles, where they are
added, does not overflow.
-/

namespace RotationCircuits

open Binary64

namespace Rendering

variable {axis : Axis} {q : Qubit} {g : Gate Float}

/-- The sum of the outer angles, which are added if the middle rotation is left out. -/
def outerSum (r : Rendering) (e : Euler Float) : Float :=
  match r with
  | zxz => e.lambda - 90.0 + (e.phi + 90.0)
  | zyz => e.lambda + e.phi

/-- A rotation by a reduced angle that is not zero. -/
def Emitted (q : Qubit) (g : Gate Float) : Prop :=
  ∃ axis θ, g = .rotation axis q θ ∧ Angle.Reduced θ ∧ Angle.isZero θ = false

theorem emitted_of_mem_turn {angle : Float} (hangle : angle.isFinite = true) (hg : g ∈ turn axis q angle) :
    Emitted q g := by
  obtain ⟨hzero, rfl⟩ := mem_turn_iff.1 hg
  exact ⟨axis, Angle.normalize angle, rfl, Angle.reduced_normalize hangle, hzero⟩

theorem emitted_of_mem_sandwich {first mid last : Float} (hfirst : first.isFinite = true) (hmid : mid.isFinite = true)
    (hlast : last.isFinite = true) (hsum : Angle.isZero mid = true → (first + last).isFinite = true)
    (hg : g ∈ sandwich axis q first mid last) : Emitted q g := by
  rcases sandwich_eq axis q first mid last with ⟨hnil, h⟩ | ⟨-, h⟩ <;> rw [h] at hg
  · rw [turn_eq_nil_iff, Angle.isZero_normalize hmid] at hnil
    exact emitted_of_mem_turn (hsum hnil) hg
  · rw [List.mem_append, List.mem_append] at hg
    rcases hg with (hg | hg) | hg
    · exact emitted_of_mem_turn hfirst hg
    · exact emitted_of_mem_turn hmid hg
    · exact emitted_of_mem_turn hlast hg

theorem emitted_of_mem_gates {r : Rendering} {e : Euler Float} (htheta : e.theta.isFinite = true)
    (hphi : e.phi.isFinite = true) (hlambda : e.lambda.isFinite = true)
    (hsum : Angle.isZero e.theta = true → (r.outerSum e).isFinite = true) (hg : g ∈ r.gates e q) : Emitted q g := by
  cases r with
  | zyz => exact emitted_of_mem_sandwich hlambda htheta hphi hsum hg
  | zxz =>
    have hquarter := Angle.within_quarterTurn
    have hfirst : (e.lambda - 90.0).isFinite = true := by
      rw [sub_eq_add_neg_float]
      exact isFinite_add_of_small hlambda hquarter.neg
    exact emitted_of_mem_sandwich hfirst htheta (isFinite_add_of_small hphi hquarter) hsum hg

end Rendering

namespace Angle

/-- **Normalized angles.** A finite angle is normalized to a finite one in `(-180, 180]` that is at most `2 ^ (-45)` away from
it less whole turns. Normalizing is idempotent and does not change whether an angle is taken as zero. So all gates of a
rendering of finite angles are rotations by such angles that are not taken as zero, if the sum of the outer angles is finite
or not needed. -/
theorem normalized_angles_canonical :
    (∀ a : Float, a.isFinite = true →
      Reduced (normalize a) ∧ (∃ k : ℤ, |value (normalize a) - (value a - 360 * k)| ≤ 2 ^ (-45 : ℤ)) ∧
        normalize (normalize a) = normalize a ∧ isZero (normalize a) = isZero a) ∧
    ∀ (r : Rendering) (e : Euler Float) (q : Qubit), e.theta.isFinite = true → e.phi.isFinite = true →
      e.lambda.isFinite = true → (isZero e.theta = true → (r.outerSum e).isFinite = true) →
      ∀ g ∈ r.gates e q, Rendering.Emitted q g := by
  refine ⟨fun a ha => ⟨reduced_normalize ha, exists_normalize_near ha, normalize_normalize ha, isZero_normalize ha⟩, ?_⟩
  intro r e q htheta hphi hlambda hsum g hg
  exact Rendering.emitted_of_mem_gates htheta hphi hlambda hsum hg

/-- Angles with large outer ones, whose sum overflows. -/
def wideOuter : Euler Float := ⟨90.0, 1e308, 1e308⟩

/-- An angle that is wrapped to a whole turn, and outer angles that would overflow around a middle rotation that stays. -/
theorem normalized_angles_canonical_extremes :
    (wrap (-1e-20 : Float) = 360.0 ∧ Reduced (normalize (-1e-20)) ∧
      normalize (normalize (-1e-20 : Float)) = normalize (-1e-20) ∧ isZero (normalize (-1e-20 : Float)) = true) ∧
    isZero wideOuter.theta = false ∧ (Rendering.zyz.outerSum wideOuter).isFinite = false ∧
      ∀ g ∈ Rendering.zyz.gates wideOuter ⟨0⟩, Rendering.Emitted ⟨0⟩ g := by
  obtain ⟨hangles, hgates⟩ := normalized_angles_canonical
  obtain ⟨hreduced, -, hagain, hzero⟩ := hangles (-1e-20) (by decide +kernel)
  have hstays : isZero wideOuter.theta = false := by decide +kernel
  have hpasses : isZero (-1e-20 : Float) = true := by decide +kernel
  refine ⟨⟨by decide +kernel, hreduced, hagain, hzero.trans hpasses⟩, hstays, by decide +kernel, ?_⟩
  refine hgates .zyz wideOuter ⟨0⟩ (by decide +kernel) (by decide +kernel) (by decide +kernel) fun hleft => ?_
  rw [hstays] at hleft
  cases hleft

end Angle

end RotationCircuits
