import RotationCircuits.Proofs.Exact.Nearness
import RotationCircuits.Proofs.Shape

/-!
# The peephole simplifier keeps the operator

A rule of the simplifier takes an angle for a whole, a half or a quarter turn if a test accepts it. `Turn.residues` lists by
how much the angles were off where a rule was applied. Over the real numbers the simplifier keeps the net matrix of its
window up to a phase and to these residues (`Turn.keeps_simplify`): the rules replace a part of a product of unitary
matrices, so their errors add up. Every residue is below the tolerance of the tests, and where all of them are zero the net
matrix stays the same (`peephole_keeps_operator`).
-/

namespace RotationCircuits.Sequence

namespace Turn

/-- The matrix of a rotation. -/
noncomputable def matrix (t : Turn ℝ) : Mat := rot t.axis t.angle

/-! ## Residues

Each list follows the function of the simplifier with the same name. A test that accepts an angle while the rule it belongs to
is not applied leaves no residue. -/

/-- Of `single`: a rotation that is dropped. -/
noncomputable def singleResidues (t : Turn ℝ) : List ℝ :=
  if Angle.isZero t.angle then [Angle.offTurns t.angle] else []

/-- Of `merge?`: two rotations that cancel. -/
noncomputable def mergeResidues (s t : Turn ℝ) : List ℝ :=
  if s.axis = t.axis then singleResidues ⟨s.axis, s.angle + t.angle⟩ else []

/-- Of `identity?`, where it replaces three rotations: the angles that are matched. -/
noncomputable def identityResidues (s t u : Turn ℝ) : List ℝ :=
  if Angle.isNear s.angle 180.0 && Angle.isNear u.angle 180.0 then [|s.angle - 180.0|, |u.angle - 180.0|]
  else [|s.angle - 90.0|, |t.angle - 180.0|, |u.angle - 90.0|]

/-- Of `short`. -/
noncomputable def shortResidues : List (Turn ℝ) → List ℝ
  | [t] => singleResidues t
  | [s, t] => mergeResidues s t
  | _ => []

/-- Of `triple`. -/
noncomputable def tripleResidues (s t u : Turn ℝ) : List ℝ :=
  match merge? s t with
  | some merged => mergeResidues s t ++ shortResidues (merged ++ [u])
  | none =>
    match merge? t u with
    | some merged => mergeResidues t u ++ shortResidues (s :: merged)
    | none =>
      match identity? s t u with
      | some v => identityResidues s t u ++ singleResidues v
      | none => []

/-- By how much the angles that the simplifier takes for whole, half or quarter turns are off. -/
noncomputable def residues : List (Turn ℝ) → List ℝ
  | [s, t, u] => tripleResidues s t u
  | ts => shortResidues ts

/-- At most `n` residues, all of them within the tolerance of the tests. -/
def Small (n : Nat) (rs : List ℝ) : Prop := rs.length ≤ n ∧ ∀ r ∈ rs, 0 ≤ r ∧ r < 1e-9

theorem Small.append {m n : Nat} {rs ss : List ℝ} (hr : Small m rs) (hs : Small n ss) : Small (m + n) (rs ++ ss) := by
  refine ⟨?_, ?_⟩
  · rw [List.length_append]
    exact Nat.add_le_add hr.1 hs.1
  · intro r h
    rcases List.mem_append.1 h with h | h
    · exact hr.2 r h
    · exact hs.2 r h

theorem Small.mono {m n : Nat} {rs : List ℝ} (h : Small m rs) (hmn : m ≤ n) : Small n rs := ⟨h.1.trans hmn, h.2⟩

theorem Small.sum_le {n : Nat} {rs : List ℝ} (h : Small n rs) : rs.sum ≤ n * 1e-9 := by
  have hsum : rs.sum ≤ rs.length • (1e-9 : ℝ) := List.sum_le_card_nsmul rs _ fun r hr => (h.2 r hr).2.le
  refine hsum.trans ?_
  rw [nsmul_eq_mul]
  have hle : (rs.length : ℝ) ≤ n := by exact_mod_cast h.1
  gcongr

theorem small_singleResidues (t : Turn ℝ) : Small 1 (singleResidues t) := by
  unfold singleResidues
  split
  · rename_i h
    simpa [Small, Angle.offTurns_nonneg] using Angle.offTurns_lt_of_isZero h
  · simp [Small]

theorem small_mergeResidues (s t : Turn ℝ) : Small 1 (mergeResidues s t) := by
  unfold mergeResidues
  split
  · exact small_singleResidues _
  · simp [Small]

theorem small_shortResidues (ts : List (Turn ℝ)) : Small 1 (shortResidues ts) := by
  unfold shortResidues
  split
  · exact small_singleResidues _
  · exact small_mergeResidues _ _
  · simp [Small]

/-- Both identities match at most three angles. -/
theorem small_identityResidues {s t u v : Turn ℝ} (h : identity? s t u = some v) :
    Small 3 (identityResidues s t u) := by
  unfold identity? at h
  unfold identityResidues
  split at h
  · split at h
    · rename_i hhalf
      rw [if_pos hhalf]
      rw [Bool.and_eq_true] at hhalf
      simpa [Small] using ⟨Angle.abs_sub_lt_of_isNear hhalf.1, Angle.abs_sub_lt_of_isNear hhalf.2⟩
    · rename_i hhalf
      rw [if_neg hhalf]
      split at h
      · rename_i hquarter
        rw [Bool.and_eq_true, Bool.and_eq_true] at hquarter
        simpa [Small] using ⟨Angle.abs_sub_lt_of_isNear hquarter.1.1, Angle.abs_sub_lt_of_isNear hquarter.1.2,
          Angle.abs_sub_lt_of_isNear hquarter.2⟩
      · cases h
  · cases h

theorem small_residues (ts : List (Turn ℝ)) : Small 4 (residues ts) := by
  unfold residues
  split
  · rename_i s t u
    unfold tripleResidues
    cases merge? s t with
    | some merged => exact ((small_mergeResidues s t).append (small_shortResidues _)).mono (by omega)
    | none =>
      cases merge? t u with
      | some merged => exact ((small_mergeResidues t u).append (small_shortResidues _)).mono (by omega)
      | none =>
        cases hid : identity? s t u with
        | some v => exact (small_identityResidues hid).append (small_singleResidues v)
        | none => simp [Small]
  · exact (small_shortResidues _).mono (by omega)

/-! ## Rules and windows -/

variable {q : Qubit}

theorem net_gates_singleton (t : Turn ℝ) : net (gates q [t]) = t.matrix := by
  simp [gates, net, Gate.matrix_rotation, matrix]

theorem net_gates_append (ts us : List (Turn ℝ)) : net (gates q (ts ++ us)) = net (gates q us) * net (gates q ts) := by
  rw [gates, List.map_append, net_append]
  rfl

theorem net_gates_cons (t : Turn ℝ) (ts : List (Turn ℝ)) : net (gates q (t :: ts)) = net (gates q ts) * t.matrix := by
  rw [gates, List.map_cons, net, Gate.matrix_rotation]
  rfl

/-- The net matrix of gates is that of others up to a phase and to some residues. -/
def Keeps (q : Qubit) (rs : List ℝ) (out ts : List (Turn ℝ)) : Prop :=
  PhaseNear (rs.sum / 25) (net (gates q out)) (net (gates q ts))

theorem Keeps.refl (ts : List (Turn ℝ)) : Keeps q [] ts ts := by
  unfold Keeps
  simpa using PhaseNear.refl (net (gates q ts))

/-- Residues add up along a chain of rules. -/
theorem Keeps.trans {rs ss : List ℝ} {ts us vs : List (Turn ℝ)} (h₁ : Keeps q rs us ts) (h₂ : Keeps q ss vs us) :
    Keeps q (rs ++ ss) vs ts := by
  unfold Keeps at *
  refine (h₂.trans h₁).mono ?_
  rw [List.sum_append]
  linarith

/-- A rule may be applied in front of other rotations. -/
theorem Keeps.append_right {rs : List ℝ} {ts us : List (Turn ℝ)} (h : Keeps q rs us ts) (vs : List (Turn ℝ)) :
    Keeps q rs (us ++ vs) (ts ++ vs) := by
  unfold Keeps at *
  rw [net_gates_append, net_gates_append]
  exact h.mul_left (net_mem_unitary _)

/-- A rule may be applied behind other rotations. -/
theorem Keeps.append_left {rs : List ℝ} {ts us : List (Turn ℝ)} (h : Keeps q rs us ts) (vs : List (Turn ℝ)) :
    Keeps q rs (vs ++ us) (vs ++ ts) := by
  unfold Keeps at *
  rw [net_gates_append, net_gates_append]
  exact h.mul_right (net_mem_unitary _)

theorem keeps_single (t : Turn ℝ) : Keeps q (singleResidues t) (single t) [t] := by
  unfold single singleResidues
  split
  · unfold Keeps
    rw [net_gates_singleton]
    refine (phaseNear_one t.axis t.angle).mono ?_
    have := Angle.offTurns_nonneg t.angle
    simp only [List.sum_cons, List.sum_nil, add_zero]
    linarith
  · exact .refl [t]

theorem keeps_merge {s t : Turn ℝ} {ts : List (Turn ℝ)} (h : merge? s t = some ts) :
    Keeps q (mergeResidues s t) ts [s, t] := by
  unfold merge? at h
  unfold mergeResidues
  split at h
  · rename_i haxis
    cases h
    rw [if_pos haxis]
    have hsum : net (gates q [s, t]) = net (gates q [⟨s.axis, s.angle + t.angle⟩]) := by
      rw [net_gates_cons, net_gates_singleton, net_gates_singleton, matrix, matrix, ← haxis, rot_mul_rot, matrix, add_comm]
    have hone := keeps_single (q := q) ⟨s.axis, s.angle + t.angle⟩
    unfold Keeps at *
    rwa [hsum]
  · cases h

theorem keeps_pair (s t : Turn ℝ) : Keeps q (mergeResidues s t) (pair s t) [s, t] := by
  unfold pair
  cases h : merge? s t with
  | none =>
    have haxis : s.axis ≠ t.axis := by
      intro heq
      simp [merge?, heq] at h
    rw [mergeResidues, if_neg haxis]
    exact .refl _
  | some ts => exact keeps_merge h

theorem keeps_short (ts : List (Turn ℝ)) : Keeps q (shortResidues ts) (short ts) ts := by
  match ts with
  | [] => exact .refl []
  | [t] => exact keeps_single t
  | [s, t] => exact keeps_pair s t
  | s :: t :: u :: ts => exact .refl (s :: t :: u :: ts)

/-- The product of three rotations changes by the sum of the changes of its factors. -/
theorem phaseNear_three (a b c : Axis) (s s' t t' u u' : ℝ) :
    PhaseNear (|u' - u| / 50 + |t' - t| / 50 + |s' - s| / 50) (rot c u' * rot b t' * rot a s')
      (rot c u * rot b t * rot a s) := by
  have hpair := (phaseNear_rot c u' u).mul (phaseNear_rot b t' t) (rot_mem_unitary c u) (rot_mem_unitary b t')
  exact hpair.mul (phaseNear_rot a s' s) (mul_mem (rot_mem_unitary c u) (rot_mem_unitary b t)) (rot_mem_unitary a s')

/-- Half turns on both sides: the middle rotation is turned around. -/
theorem phaseNear_half_turns {a b : Axis} (hne : a ≠ b) (s t u : ℝ) :
    PhaseNear ((|s - 180| + |u - 180|) / 50) (rot b (-t)) (rot a u * rot b t * rot a s) := by
  have hflip : rot b (-t) = (-1 : ℂ) • (rot a 180 * rot b t * rot a 180) := by
    rw [half_turn_conj hne, smul_smul]
    simp
  have hthree := phaseNear_three a b a s 180 t t u 180
  refine ((PhaseNear.of_eq_smul (by simp) hflip).trans hthree).mono ?_
  rw [sub_self, abs_zero, abs_sub_comm 180 u, abs_sub_comm 180 s]
  linarith

/-- Quarter turns on both sides of a half turn: they cancel. The middle rotation is off twice, where it is kept and where it
is replaced. -/
theorem phaseNear_quarter_turns {a b : Axis} (hne : a ≠ b) (s t u : ℝ) :
    PhaseNear ((|s - 90| + |t - 180| + |u - 90|) / 25) (rot b t) (rot a u * rot b t * rot a s) := by
  have hthree := phaseNear_three a b a s 90 t 180 u 90
  rw [quarter_turn_conj hne] at hthree
  refine ((phaseNear_rot b t 180).trans hthree).mono ?_
  rw [abs_sub_comm 90 u, abs_sub_comm 180 t, abs_sub_comm 90 s]
  have := abs_nonneg (u - 90)
  have := abs_nonneg (s - 90)
  linarith

theorem keeps_identity {s t u v : Turn ℝ} (h : identity? s t u = some v) :
    Keeps q (identityResidues s t u) [v] [s, t, u] := by
  have h180 : (180.0 : ℝ) = 180 := by norm_num
  have h90 : (90.0 : ℝ) = 90 := by norm_num
  unfold identity? at h
  unfold identityResidues Keeps
  rw [h180] at h ⊢
  rw [h90] at h ⊢
  rw [net_gates_singleton]
  split at h
  · rename_i haxes
    obtain ⟨haxis, hne⟩ := haxes
    have hnet : net (gates q [s, t, u]) = rot s.axis u.angle * rot t.axis t.angle * rot s.axis s.angle := by
      rw [net_gates_cons, net_gates_cons, net_gates_singleton, matrix, matrix, matrix, haxis]
    rw [hnet]
    split at h
    · rename_i hhalf
      rw [if_pos hhalf]
      cases h
      refine (phaseNear_half_turns hne.symm s.angle t.angle u.angle).mono ?_
      have := abs_nonneg (s.angle - 180)
      have := abs_nonneg (u.angle - 180)
      simp only [List.sum_cons, List.sum_nil, add_zero]
      linarith
    -- With half turns on both sides excluded, the rule for quarter turns was applied.
    · rename_i hhalf
      rw [if_neg hhalf]
      split at h
      · cases h
        refine (phaseNear_quarter_turns hne.symm s.angle t.angle u.angle).mono ?_
        simp only [List.sum_cons, List.sum_nil, add_zero]
        linarith
      · cases h
  · cases h

theorem keeps_triple (s t u : Turn ℝ) : Keeps q (tripleResidues s t u) (triple s t u) [s, t, u] := by
  unfold triple tripleResidues
  cases hst : merge? s t with
  | some merged => exact ((keeps_merge hst).append_right [u]).trans (keeps_short _)
  | none =>
    cases htu : merge? t u with
    | some merged => exact ((keeps_merge htu).append_left [s]).trans (keeps_short _)
    | none =>
      cases hid : identity? s t u with
      | some v => exact (keeps_identity hid).trans (keeps_single v)
      | none => exact .refl _

/-- The simplifier keeps the net matrix up to a phase and to its residues. -/
theorem keeps_simplify (ts : List (Turn ℝ)) : Keeps q (residues ts) (simplify ts) ts := by
  match ts with
  | [] => exact keeps_short []
  | [t] => exact keeps_short [t]
  | [s, t] => exact keeps_short [s, t]
  | [s, t, u] => exact keeps_triple s t u
  | s :: t :: u :: v :: ts => exact keeps_short (s :: t :: u :: v :: ts)

end Turn

/-! ## Lists of gates -/

/-- The peephole simplifier keeps the operator of every list of gates, up to a phase and the tolerance of its tests. -/
theorem phaseNear_peephole (gs : List (Gate ℝ)) : PhaseNear 2e-10 (net (peephole gs)) (net gs) := by
  rcases peephole_cases gs with h | ⟨q, ts, rfl, -, h⟩
  · rw [h]
    exact (PhaseNear.refl _).mono (by norm_num)
  · have hle := (Turn.small_residues ts).sum_le
    rw [h]
    refine PhaseNear.mono (Turn.keeps_simplify ts) ?_
    norm_num at hle ⊢
    linarith

open scoped Matrix.Norms.L2Operator in
/-- **The peephole simplifier keeps the operator.** For rotations of one qubit, as many as there are and by any angles, the net
matrix stays the same up to a phase and an error below `1e-9` in each entry; and it stays the same up to that phase if every
angle that was taken for a whole, a half or a quarter turn is one. -/
theorem peephole_keeps_operator (q : Qubit) (ts : List (Turn ℝ)) :
    ∃ c : ℂ, ‖c‖ = 1 ∧
      (∀ i j, ‖net (peephole (Turn.gates q ts)) i j - c * net (Turn.gates q ts) i j‖ < 1e-9) ∧
      ((∀ r ∈ Turn.residues ts, r = 0) → net (peephole (Turn.gates q ts)) = c • net (Turn.gates q ts)) := by
  obtain ⟨c, hc, hnear⟩ := Turn.keeps_simplify (q := q) ts
  rw [peephole_gates]
  refine ⟨c, hc, fun i j => ?_, fun hzero => ?_⟩
  · have hle := (Turn.small_residues ts).sum_le
    refine (norm_entry_le (net _ - c • net _) i j).trans_lt (hnear.trans_lt ?_)
    norm_num at hle ⊢
    linarith
  · rw [List.sum_eq_zero hzero, zero_div] at hnear
    exact sub_eq_zero.1 (norm_le_zero_iff.1 hnear)

/-- A rotation between two half turns. -/
noncomputable def conjugated : List (Turn ℝ) := [⟨.y, 180.0⟩, ⟨.x, 86.0⟩, ⟨.y, 180.0⟩]

theorem peephole_keeps_operator_conjugated :
    (∀ r ∈ Turn.residues conjugated, r = 0) ∧
      ∃ c : ℂ, ‖c‖ = 1 ∧
        net (peephole (Turn.gates ⟨0⟩ conjugated)) = c • net (Turn.gates ⟨0⟩ conjugated) := by
  have hnear : Angle.isNear (180.0 : ℝ) 180.0 = true := by
    rw [Angle.isNear, decide_eq_true_iff]
    show |(180.0 : ℝ) - 180.0| < 1e-9
    norm_num
  have hnonzero : Angle.isZero (-86.0 : ℝ) = false := by
    rw [← Bool.not_eq_true]
    intro hzero
    obtain ⟨k, hk⟩ := Angle.exists_abs_sub_lt_of_isZero hzero
    rw [abs_lt] at hk
    norm_num at hk
    have hlow : (-1 : ℝ) < k := by linarith
    have hhigh : (k : ℝ) < 0 := by linarith
    have : -1 < k := by exact_mod_cast hlow
    have : k < 0 := by exact_mod_cast hhigh
    omega
  have hzero : ∀ r ∈ Turn.residues conjugated, r = 0 := by
    simp [conjugated, Turn.residues, Turn.tripleResidues, Turn.merge?, Turn.identity?, Turn.identityResidues,
      Turn.singleResidues, hnear, hnonzero]
  obtain ⟨c, hc, -, heq⟩ := peephole_keeps_operator ⟨0⟩ conjugated
  exact ⟨hzero, c, hc, heq hzero⟩

end RotationCircuits.Sequence
