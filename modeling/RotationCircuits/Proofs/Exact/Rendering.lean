import RotationCircuits.Proofs.Exact.Nearness
import RotationCircuits.Proofs.Native

/-!
# Renderings keep the operator

Both renderings of Euler angles have the operator of the angles up to a phase. The only errors come from rotations that are
left out: each costs as much as its angle is off a whole number of turns, and normalizing the angles costs nothing. So
`Rendering.omitted` lists the angles that are left out, and the error of a rendering is what they are off together
(`phaseNear_omitted`). The equivalents of X and Y rotations leave nothing out, and they are exact without a phase.
-/

namespace RotationCircuits

open Complex Matrix
open Hardware (Profile)

/-! ## Angles off whole turns -/

namespace Angle

theorem offTurns_of_turns (k : ℤ) : offTurns (360 * k) = 0 := by
  have hle := offTurns_le (360 * k) k
  rw [sub_self, abs_zero] at hle
  exact le_antisymm hle (offTurns_nonneg _)

/-- An angle is as far from whole turns as its normal form, which is what the test for zero sees. -/
theorem offTurns_lt_of_isZero_normalize {a : ℝ} (h : isZero (normalize a) = true) : offTurns a < 1e-9 := by
  obtain ⟨k, hk, -⟩ := exists_normalize_eq a
  obtain ⟨n, hn⟩ := exists_abs_sub_lt_of_isZero h
  have hsub : normalize a - 360 * n = a - 360 * ((k + n : ℤ) : ℝ) := by
    rw [hk]
    push_cast
    ring
  rw [hsub] at hn
  exact (offTurns_le a (k + n)).trans_lt hn

theorem isZero_normalize_of_between {a : ℝ} (hlow : 1 ≤ a) (hhigh : a ≤ 359) : isZero (normalize a) = false := by
  rw [← Bool.not_eq_true]
  intro hzero
  have hoff := offTurns_lt_of_isZero_normalize hzero
  rw [offTurns, abs_lt] at hoff
  norm_num at hoff
  rcases le_or_gt (round (a / 360)) 0 with hk | hk
  · have hk : (round (a / 360) : ℝ) ≤ 0 := by exact_mod_cast hk
    linarith
  · have hk : (1 : ℝ) ≤ round (a / 360) := by exact_mod_cast hk
    linarith

/-- What angles are off whole turns together. -/
noncomputable def totalOff (angles : List ℝ) : ℝ := (angles.map offTurns).sum

theorem totalOff_append (as bs : List ℝ) : totalOff (as ++ bs) = totalOff as + totalOff bs := by
  rw [totalOff, List.map_append, List.sum_append, totalOff, totalOff]

theorem totalOff_of_turns {angles : List ℝ} (h : ∀ a ∈ angles, ∃ k : ℤ, a = 360 * k) : totalOff angles = 0 := by
  refine List.sum_eq_zero fun x hx => ?_
  obtain ⟨a, ha, rfl⟩ := List.mem_map.1 hx
  obtain ⟨k, rfl⟩ := h a ha
  exact offTurns_of_turns k

end Angle

open Angle (totalOff totalOff_append)

namespace Rendering

/-! ## Angles that are left out

Each list follows the function with the same name. -/

section Omitted

variable {α : Type} [Scalar α]

/-- Of `turn`: the angle, if its normal form is zero. -/
def omittedTurn (angle : α) : List α := if Angle.isZero (Angle.normalize angle) then [angle] else []

/-- Of `sandwich`: without the middle rotation there is only the sum of the outer angles. -/
def omittedSandwich (first mid last : α) : List α :=
  if Angle.isZero (Angle.normalize mid) then mid :: omittedTurn (first + last)
  else omittedTurn first ++ omittedTurn last

/-- The angles of the rotations that a rendering leaves out. -/
def omitted (r : Rendering) (e : Euler α) : List α :=
  match r with
  | zxz => omittedSandwich (e.lambda - 90.0) e.theta (e.phi + 90.0)
  | zyz => omittedSandwich e.lambda e.theta e.phi

theorem length_omittedTurn_le (angle : α) : (omittedTurn angle).length ≤ 1 := by
  unfold omittedTurn
  split <;> simp

/-- At most two angles are left out: the middle one and the sum of the others, or the outer two. -/
theorem length_omittedSandwich_le (first mid last : α) : (omittedSandwich first mid last).length ≤ 2 := by
  have hfirst := length_omittedTurn_le first
  have hlast := length_omittedTurn_le last
  have hsum := length_omittedTurn_le (first + last)
  unfold omittedSandwich
  split
  · rw [List.length_cons]
    omega
  · rw [List.length_append]
    omega

/-- The angles that are left out are zero once they are normalized. -/
theorem isZero_of_mem_omittedTurn {angle a : α} (h : a ∈ omittedTurn angle) :
    Angle.isZero (Angle.normalize a) = true := by
  unfold omittedTurn at h
  split at h
  · rename_i hzero
    rwa [List.mem_singleton.1 h]
  · cases h

theorem isZero_of_mem_omittedSandwich {first mid last a : α} (h : a ∈ omittedSandwich first mid last) :
    Angle.isZero (Angle.normalize a) = true := by
  unfold omittedSandwich at h
  split at h
  · rename_i hzero
    rcases List.mem_cons.1 h with rfl | h
    · exact hzero
    · exact isZero_of_mem_omittedTurn h
  · rcases List.mem_append.1 h with h | h <;> exact isZero_of_mem_omittedTurn h

end Omitted

theorem totalOff_omitted_le (r : Rendering) (e : Euler ℝ) : totalOff (r.omitted e) ≤ 2e-9 := by
  have hoff : ∀ x ∈ (r.omitted e).map Angle.offTurns, x ≤ 1e-9 := by
    intro x hx
    obtain ⟨a, ha, rfl⟩ := List.mem_map.1 hx
    refine (Angle.offTurns_lt_of_isZero_normalize ?_).le
    cases r <;> exact isZero_of_mem_omittedSandwich ha
  have hlength : ((r.omitted e).length : ℝ) ≤ 2 := by
    have hle : (r.omitted e).length ≤ 2 := by cases r <;> exact length_omittedSandwich_le ..
    exact_mod_cast hle
  refine (List.sum_le_card_nsmul _ _ hoff).trans ?_
  rw [List.length_map, nsmul_eq_mul]
  norm_num
  linarith

/-! ## The operator of a rendering -/

theorem phaseNear_turn (a : Axis) (q : Qubit) (t : ℝ) :
    PhaseNear (totalOff (omittedTurn t) / 50) (net (turn a q t)) (rot a t) := by
  unfold turn omittedTurn
  dsimp only
  split
  · simpa [totalOff, net] using phaseNear_one a t
  · simpa [totalOff, net, Gate.matrix_rotation] using phaseNear_rot_normalize a t

theorem phaseNear_sandwich (a : Axis) (q : Qubit) (first mid last : ℝ) :
    PhaseNear (totalOff (omittedSandwich first mid last) / 50) (net (sandwich a q first mid last))
      (rot .z last * rot a mid * rot .z first) := by
  have hmid := phaseNear_turn a q mid
  unfold omittedSandwich
  cases hzero : Angle.isZero (Angle.normalize mid) with
  | true =>
    -- Without the middle rotation the outer two are one.
    have hnil : turn a q mid = [] := by simp [turn, hzero]
    have homit : omittedTurn mid = [mid] := by simp [omittedTurn, hzero]
    rw [hnil, homit] at hmid
    have hskip := (hmid.mul_left (rot_mem_unitary .z last)).mul_right (rot_mem_unitary .z first)
    have hsum : rot .z last * net [] * rot .z first = rot .z (first + last) := by
      rw [net, mul_one, rot_mul_rot, add_comm]
    rw [hsum] at hskip
    rw [sandwich, hnil, if_pos rfl, ← List.singleton_append, totalOff_append]
    exact ((phaseNear_turn .z q (first + last)).trans hskip).mono (by linarith)
  | false =>
    have hone : turn a q mid = [.rotation a q (Angle.normalize mid)] := by simp [turn, hzero]
    have hnone : totalOff (omittedTurn mid) = 0 := by simp [omittedTurn, hzero, totalOff]
    have hpair := (phaseNear_turn .z q last).mul hmid (rot_mem_unitary .z last) (net_mem_unitary _)
    have hthree := hpair.mul (phaseNear_turn .z q first) (mul_mem (rot_mem_unitary .z last) (rot_mem_unitary a mid))
      (net_mem_unitary _)
    rw [hone, hnone] at hthree
    rw [sandwich, hone, net_append, net_append, ← mul_assoc, if_neg Bool.false_ne_true, totalOff_append]
    exact hthree.mono (by linarith)

/-- A rotation around X between shifted rotations around Z is one around Y. -/
theorem rot_shift_quarter_turns (theta phi lambda : ℝ) :
    rot .z (phi + 90) * rot .x theta * rot .z (lambda - 90) = rot .z phi * rot .y theta * rot .z lambda := by
  rw [← rot_z_conj, sub_eq_neg_add, ← rot_mul_rot, ← rot_mul_rot]
  simp only [mul_assoc]

/-- **Both renderings have the operator of their angles**, up to what the angles that are left out are off. -/
theorem phaseNear_omitted (r : Rendering) (e : Euler ℝ) (q : Qubit) :
    PhaseNear (totalOff (r.omitted e) / 50) (net (r.gates e q)) e.operator.toMatrix := by
  have hphase : PhaseNear 0 (rot .z e.phi * rot .y e.theta * rot .z e.lambda) e.operator.toMatrix := by
    refine (PhaseNear.of_eq_smul ?_ e.toMatrix_operator).symm
    exact norm_exp_ofReal_mul_I _
  cases r with
  | zyz => exact ((phaseNear_sandwich .y q e.lambda e.theta e.phi).trans hphase).mono (by rw [add_zero]; rfl)
  | zxz =>
    have h90 : (90.0 : ℝ) = 90 := by norm_num
    have hsandwich := phaseNear_sandwich .x q (e.lambda - 90) e.theta (e.phi + 90)
    rw [rot_shift_quarter_turns] at hsandwich
    show PhaseNear (totalOff (omittedSandwich (e.lambda - (90.0 : ℝ)) e.theta (e.phi + (90.0 : ℝ))) / 50)
      (net (sandwich .x q (e.lambda - (90.0 : ℝ)) e.theta (e.phi + (90.0 : ℝ)))) _
    rw [h90]
    exact (hsandwich.trans hphase).mono (by rw [add_zero])

theorem phaseNear_gates (r : Rendering) (e : Euler ℝ) (q : Qubit) :
    PhaseNear 6e-11 (net (r.gates e q)) e.operator.toMatrix := by
  have hle := totalOff_omitted_le r e
  refine (phaseNear_omitted r e q).mono ?_
  norm_num at hle ⊢
  linarith

end Rendering

/-! ## Equivalents of X and Y rotations -/

namespace Gate

variable {p : Profile} {q : Qubit}

/-- Over the real numbers a rotation fits as soon as its qubit exists. -/
theorem fits_rotation (hq : q.index.toNat < p.width) (a : Axis) (t : ℝ) : (rotation a q t).Fits p.width := by
  refine ⟨(validate_eq_ok_iff (by simp)).2 fun _ _ => rfl, fun r hr => ?_⟩
  rwa [List.mem_singleton.1 hr]

theorem toNative_rotation_x (hbasis : p.basis = .yz) (hq : q.index.toNat < p.width) (t : ℝ) :
    (rotation .x q t).toNative p = .ok [rotation .z q 90.0, rotation .y q t, rotation .z q (-90.0)] := by
  have hforeign : p.supports (rotation .x q t) = false := by simp [Profile.supports, hbasis, Hardware.Basis.contains]
  exact toNative_eq_substitute (fits_rotation hq .x t) hforeign

theorem toNative_rotation_y (hbasis : p.basis = .xz) (hq : q.index.toNat < p.width) (t : ℝ) :
    (rotation .y q t).toNative p = .ok [rotation .z q (-90.0), rotation .x q t, rotation .z q 90.0] := by
  have hforeign : p.supports (rotation .y q t) = false := by simp [Profile.supports, hbasis, Hardware.Basis.contains]
  exact toNative_eq_substitute (fits_rotation hq .y t) hforeign

theorem net_three (a b c : Axis) (q : Qubit) (s t u : ℝ) :
    net [rotation a q s, rotation b q t, rotation c q u] = rot c u * rot b t * rot a s := by
  simp [net, matrix_rotation]

/-- The equivalent of an X rotation: quarter turns around Z take Y back to X. -/
theorem net_equivalent_x (q : Qubit) (t : ℝ) :
    net [rotation .z q 90.0, rotation .y q t, rotation .z q (-90.0)] = (rotation .x q t).matrix := by
  have h90 : (90.0 : ℝ) = 90 := by norm_num
  have hcancel : rot .z (-90) * rot .z 90 = 1 := by
    rw [rot_mul_rot]
    simp
  show net [rotation .z q (90.0 : ℝ), rotation .y q t, rotation .z q (-90.0 : ℝ)] = _
  rw [h90, net_three, matrix_rotation, ← rot_z_conj]
  calc rot .z (-90) * (rot .z 90 * rot .x t * rot .z (-90)) * rot .z 90
    _ = (rot .z (-90) * rot .z 90) * rot .x t * (rot .z (-90) * rot .z 90) := by simp only [mul_assoc]
    _ = rot .x t := by rw [hcancel, one_mul, mul_one]

theorem net_equivalent_y (q : Qubit) (t : ℝ) :
    net [rotation .z q (-90.0), rotation .x q t, rotation .z q 90.0] = (rotation .y q t).matrix := by
  have h90 : (90.0 : ℝ) = 90 := by norm_num
  show net [rotation .z q (-90.0 : ℝ), rotation .x q t, rotation .z q (90.0 : ℝ)] = _
  rw [h90, net_three, matrix_rotation, rot_z_conj]

end Gate

/-! ## The operator is kept -/

open scoped Matrix.Norms.L2Operator in
/-- **Renderings and equivalents of rotations keep the operator.** The gates of a rendering have the matrix of the angles up
to a phase and an error below `1e-9` in each entry, and up to that phase alone if every angle that is left out is a whole
number of turns. The equivalents of an X rotation without X and of a Y rotation without Y have the very matrix of the
rotation. -/
theorem native_renderings_keep_operator :
    (∀ (r : Rendering) (e : Euler ℝ) (q : Qubit), ∃ c : ℂ, ‖c‖ = 1 ∧
      (∀ i j, ‖net (r.gates e q) i j - c * e.operator.toMatrix i j‖ < 1e-9) ∧
      ((∀ a ∈ r.omitted e, ∃ k : ℤ, a = 360 * k) → net (r.gates e q) = c • e.operator.toMatrix)) ∧
    ∀ (p : Profile) (q : Qubit) (t : ℝ), q.index.toNat < p.width →
      (p.basis = .yz → ∃ out, (Gate.rotation .x q t).toNative p = .ok out ∧
        out = [.rotation .z q 90.0, .rotation .y q t, .rotation .z q (-90.0)] ∧
        net out = (Gate.rotation .x q t).matrix) ∧
      (p.basis = .xz → ∃ out, (Gate.rotation .y q t).toNative p = .ok out ∧
        out = [.rotation .z q (-90.0), .rotation .x q t, .rotation .z q 90.0] ∧
        net out = (Gate.rotation .y q t).matrix) := by
  refine ⟨fun r e q => ?_, fun p q t hq => ⟨fun hbasis => ?_, fun hbasis => ?_⟩⟩
  · obtain ⟨c, hc, hnear⟩ := r.phaseNear_omitted e q
    refine ⟨c, hc, fun i j => ?_, fun hturns => ?_⟩
    · have hle := Rendering.totalOff_omitted_le r e
      refine (norm_entry_le (net (r.gates e q) - c • e.operator.toMatrix) i j).trans_lt (hnear.trans_lt ?_)
      norm_num at hle ⊢
      linarith
    · rw [Angle.totalOff_of_turns hturns, zero_div] at hnear
      exact sub_eq_zero.1 (norm_le_zero_iff.1 hnear)
  · exact ⟨_, Gate.toNative_rotation_x hbasis hq t, rfl, Gate.net_equivalent_x q t⟩
  · exact ⟨_, Gate.toNative_rotation_y hbasis hq t, rfl, Gate.net_equivalent_y q t⟩

/-- A whole turn between two rotations around Z. -/
noncomputable def wholeTurn : Euler ℝ := ⟨360.0, 30.0, 20.0⟩

theorem native_renderings_keep_operator_wholeTurn :
    (∀ a ∈ Rendering.zyz.omitted wholeTurn, ∃ k : ℤ, a = 360 * k) ∧
      (∃ c : ℂ, ‖c‖ = 1 ∧ net (Rendering.zyz.gates wholeTurn ⟨0⟩) = c • wholeTurn.operator.toMatrix) ∧
      (∃ out, (Gate.rotation .x ⟨1⟩ 40).toNative (.pair .yz) = .ok out ∧
        net out = (Gate.rotation .x ⟨1⟩ (40 : ℝ)).matrix) ∧
      ∃ out, (Gate.rotation .y ⟨1⟩ 40).toNative (.pair .xz) = .ok out ∧
        net out = (Gate.rotation .y ⟨1⟩ (40 : ℝ)).matrix := by
  have hkept : ∀ a : ℝ, 1 ≤ a → a ≤ 359 → Rendering.omittedTurn a = [] := by
    intro a hlow hhigh
    simp [Rendering.omittedTurn, Angle.isZero_normalize_of_between hlow hhigh]
  have hturns : ∀ a ∈ Rendering.zyz.omitted wholeTurn, ∃ k : ℤ, a = 360 * k := by
    have hsum := hkept (20.0 + 30.0) (by norm_num) (by norm_num)
    have hfirst := hkept 20.0 (by norm_num) (by norm_num)
    have hlast := hkept 30.0 (by norm_num) (by norm_num)
    intro a ha
    change a ∈ if Angle.isZero (Angle.normalize (360.0 : ℝ)) then (360.0 : ℝ) :: Rendering.omittedTurn (20.0 + 30.0)
      else Rendering.omittedTurn 20.0 ++ Rendering.omittedTurn 30.0 at ha
    rw [hsum, hfirst, hlast] at ha
    split at ha
    · rw [List.mem_singleton.1 ha]
      exact ⟨1, by norm_num⟩
    · cases ha
  obtain ⟨hrender, hrotation⟩ := native_renderings_keep_operator
  obtain ⟨c, hc, -, hexact⟩ := hrender .zyz wholeTurn ⟨0⟩
  obtain ⟨outx, hx, -, hnetx⟩ := (hrotation (.pair .yz) ⟨1⟩ 40 (by decide)).1 rfl
  obtain ⟨outy, hy, -, hnety⟩ := (hrotation (.pair .xz) ⟨1⟩ 40 (by decide)).2 rfl
  exact ⟨hturns, ⟨c, hc, hexact hturns⟩, ⟨outx, hx, hnetx⟩, outy, hy, hnety⟩

end RotationCircuits
