import RotationCircuits.Proofs.Exact.Peephole
import RotationCircuits.Proofs.Exact.Rendering
import RotationCircuits.Proofs.Exact.Synthesis

/-!
# Optimizing a sequence keeps its net operation

Read over the real numbers, optimizing a sequence of gates on a qubit of the target always succeeds, and the matrix of the
result is that of the sequence up to a phase and an error below `1e-8` in each entry (`optimize_keeps_net_operation`). Both
candidates have this property, so it does not matter which one is chosen.
-/

namespace RotationCircuits

open Complex Matrix
open Hardware (Profile)
open scoped Matrix.Norms.L2Operator

/-! ## The net operator -/

namespace Sequence

variable {p : Profile} {q : Qubit} {gs : List (Gate ℝ)}

theorem product_eq_ok (hq : ∀ g ∈ gs, g.qubit? = some q) (u : Operator ℝ) :
    ∃ v, product u gs = .ok v ∧ v.toMatrix = net gs * u.toMatrix := by
  induction gs generalizing u with
  | nil => exact ⟨u, rfl, (one_mul _).symm⟩
  | cons g gs ih =>
    rw [List.forall_mem_cons] at hq
    cases hop : g.operator? with
    | none =>
      cases g with
      | cx control target => cases hq.1
      | rotation a r t => cases a <;> cases hop
      | general r e => cases hop
    | some w =>
      obtain ⟨v, hv, hmatrix⟩ := ih hq.2 (w * u)
      have hw : g.matrix = w.toMatrix := by simp [Gate.matrix, hop]
      refine ⟨v, by rw [product, hop]; exact hv, ?_⟩
      rw [hmatrix, Operator.toMatrix_mul, net, hw, mul_assoc]

theorem qubit_eq_ok (hq : ∀ g ∈ gs, g.qubit? = some q) : ∃ r, qubit gs = .ok r := by
  by_cases hnil : gs = []
  · exact ⟨none, qubit_eq_ok_none_iff.2 hnil⟩
  · exact ⟨some q, qubit_eq_ok_some_iff.2 ⟨hnil, hq⟩⟩

/-- The net operator is the product of the gates without its phase. -/
theorem operator_eq_stripPhase (hq : ∀ g ∈ gs, g.qubit? = some q) :
    ∃ v : Operator ℝ, v.toMatrix = net gs ∧ operator gs = .ok v.stripPhase := by
  obtain ⟨r, hr⟩ := qubit_eq_ok hq
  obtain ⟨v, hv, hmatrix⟩ := product_eq_ok hq .identity
  refine ⟨v, ?_, ?_⟩
  · rw [hmatrix, Operator.toMatrix_identity, mul_one]
  · rw [operator, hr]
    show (product .identity gs >>= stripPhase) = _
    rw [hv]
    exact stripPhase_eq_ok v

theorem operator_eq_ok (hq : ∀ g ∈ gs, g.qubit? = some q) :
    ∃ u, operator gs = .ok u ∧ ∃ c : ℂ, ‖c‖ = 1 ∧ u.toMatrix = c • net gs := by
  obtain ⟨v, hmatrix, hv⟩ := operator_eq_stripPhase hq
  obtain ⟨c, hc, hstrip⟩ := v.toMatrix_stripPhase
  exact ⟨v.stripPhase, hv, c, hc, by rw [hstrip, hmatrix]⟩

/-! ## Candidates -/

/-- The net matrices agree up to a phase and a small error in each entry. -/
def SameOperation (gs hs : List (Gate ℝ)) : Prop :=
  ∃ c : ℂ, ‖c‖ = 1 ∧ ∀ i j, ‖net gs i j - c * net hs i j‖ < 1e-8

theorem SameOperation.of_phaseNear {hs : List (Gate ℝ)} {ε : ℝ} (h : PhaseNear ε (net hs) (net gs)) (hε : ε < 1e-8) :
    SameOperation hs gs := by
  obtain ⟨c, hc, hle⟩ := h
  exact ⟨c, hc, fun i j => (norm_entry_le (net hs - c • net gs) i j).trans_lt (hle.trans_lt hε)⟩

/-- **Synthesis** always succeeds and keeps the net operation. -/
theorem synthesize_eq_ok (p : Profile) (hq : ∀ g ∈ gs, g.qubit? = some q) :
    ∃ out, synthesize p q gs = .ok out ∧ SameOperation out gs := by
  obtain ⟨u, hu, c, hc, hmatrix⟩ := operator_eq_ok hq
  have hunitary : u.toMatrix ∈ unitary Mat := by
    rw [hmatrix]
    exact smul_mem_unitary hc (net_mem_unitary gs)
  obtain ⟨e, he, hentries⟩ := Euler.ofOperator_eq_ok hunitary
  obtain ⟨r, -, hsel⟩ := Rendering.select_eq_ok p e q
  refine ⟨r.gates e q, ?_, ?_⟩
  · rw [synthesize, hu]
    show (Euler.ofOperator u >>= fun angles => Rendering.select p angles q >>= fun b => pure b.2) = _
    rw [he]
    show (Rendering.select p e q >>= fun b => pure b.2) = _
    rw [hsel]
    rfl
  · -- Errors of the rendering and of the angles, with their phases.
    obtain ⟨c₁, hc₁, hrender⟩ := r.phaseNear_gates e q
    obtain ⟨c₂, hc₂, hstrip⟩ := u.toMatrix_stripPhase
    refine ⟨c₁ * (c₂ * c), by simp [hc, hc₁, hc₂], fun i j => ?_⟩
    have hfirst := (norm_entry_le (net (r.gates e q) - c₁ • e.operator.toMatrix) i j).trans hrender
    have hsecond := hentries i j
    rw [hstrip, hmatrix] at hsecond
    have hsplit : net (r.gates e q) i j - c₁ * (c₂ * c) * net gs i j =
        (net (r.gates e q) - c₁ • e.operator.toMatrix) i j +
          c₁ * (e.operator.toMatrix i j - (c₂ • c • net gs) i j) := by
      simp only [Matrix.sub_apply, Matrix.smul_apply, smul_eq_mul]
      ring
    rw [hsplit]
    refine (norm_add_le _ _).trans_lt ?_
    rw [norm_mul, hc₁, one_mul]
    norm_num at hfirst hsecond ⊢
    linarith

theorem choose_eq_ok (p : Profile) (hq : ∀ g ∈ gs, g.qubit? = some q) :
    ∃ out, choose p q gs = .ok out ∧ SameOperation out gs := by
  have hsimple : SameOperation (peephole gs) gs := .of_phaseNear (phaseNear_peephole gs) (by norm_num)
  obtain ⟨made, hmade, hsame⟩ := synthesize_eq_ok p hq
  unfold choose
  dsimp only
  split
  · exact ⟨_, rfl, hsimple⟩
  · rw [hmade]
    simp only [bind, Except.bind]
    split
    · exact ⟨_, rfl, hsimple⟩
    · exact ⟨_, rfl, hsame⟩

/-- Over the real numbers every angle is finite. -/
theorem validateAll_eq_ok (hq : ∀ g ∈ gs, g.qubit? = some q) : validateAll gs = .ok () := by
  refine validateAll_eq_ok_iff.2 fun g hg => ?_
  refine (Gate.validate_eq_ok_iff ?_).2 fun _ _ => rfl
  rintro control target rfl
  cases hq _ hg

/-- **Optimizing keeps the net operation.** Any gates on one qubit of the target are optimized, and the result has their
matrix up to a phase and an error below `1e-8` in each entry. This holds for all durations, also where a total wraps around:
the totals decide between renderings of the same operator only. -/
theorem optimize_keeps_net_operation (p : Profile) (q : Qubit) (hwidth : q.index.toNat < p.width)
    (gates : List (Gate ℝ)) (hgates : ∀ g ∈ gates, g.qubit? = some q) :
    ∃ out, optimize p gates = .ok out ∧
      ∃ c : ℂ, ‖c‖ = 1 ∧ ∀ i j, ‖net out i j - c * net gates i j‖ < 1e-8 := by
  by_cases hnil : gates = []
  · subst hnil
    exact ⟨[], rfl, SameOperation.of_phaseNear (PhaseNear.refl _) (by norm_num)⟩
  · have hqubit : qubit gates = .ok (some q) := qubit_eq_ok_some_iff.2 ⟨hnil, hgates⟩
    have hcheck : (p.checkQubit q : Except (Error ℝ) Unit) = .ok () := Profile.checkQubit_eq_ok_iff.2 hwidth
    have hopt : optimize p gates = if window < gates.length then synthesize p q gates else choose p q gates := by
      unfold optimize
      rw [hqubit]
      simp only [bind, Except.bind, hcheck, validateAll_eq_ok hgates]
    rw [hopt]
    split
    · exact synthesize_eq_ok p hgates
    · exact choose_eq_ok p hgates

/-- Four gates on the second qubit, one of them general. -/
def mixed : List (Gate ℝ) :=
  [.rotation .x ⟨1⟩ 30, .general ⟨1⟩ ⟨10, 20, 30⟩, .rotation .z ⟨1⟩ 45, .rotation .y ⟨1⟩ 200]

theorem optimize_keeps_net_operation_mixed :
    (∀ g ∈ mixed, g.qubit? = some ⟨1⟩) ∧
      ∃ out, optimize (.pair .xyz) mixed = .ok out ∧
        ∃ c : ℂ, ‖c‖ = 1 ∧ ∀ i j, ‖net out i j - c * net mixed i j‖ < 1e-8 := by
  have hmixed : ∀ g ∈ mixed, g.qubit? = some ⟨1⟩ := by simp [mixed, Gate.qubit?]
  exact ⟨hmixed, optimize_keeps_net_operation (.pair .xyz) ⟨1⟩ (by decide) mixed hmixed⟩

end Sequence

end RotationCircuits
