import RotationCircuits.Proofs.Finite.Angles
import RotationCircuits.Proofs.Pipeline.Failure

/-!
# Validity of native gates

The native equivalent of a valid gate is valid, with one exception: a general gate without a middle rotation is rendered by
the sum of its outer angles, and that sum can overflow. Then the one gate that is made is a rotation by something that is
not a number, whatever the rotations of the target are (`Gate.toNative_overflow_cases`).
-/

namespace RotationCircuits

open Binary64
open Hardware (Profile)

variable {p : Profile}

namespace Gate

/-- A general gate whose outer angles are added and whose sum is not finite. -/
def overflows : Gate Float → Bool
  | general _ e => e.overflows
  | _ => false

/-- The equivalent of a general gate is its decomposition. -/
theorem toNative_general {q : Qubit} {e : Euler Float} (h : (general q e).Fits p.width) :
    (general q e).toNative p = Sequence.decompose p q e :=
  toNative_eq_substitute h rfl

theorem decompose_eq_gates {q : Qubit} {e : Euler Float} {out : List (Gate Float)}
    (h : Sequence.decompose p q e = .ok out) : ∃ r : Rendering, out = r.gates e q := by
  obtain ⟨r, -, hselect⟩ := Rendering.select_eq_ok p e q
  simp only [Sequence.decompose, check_bind_eq_ok, hselect] at h
  obtain ⟨-, -, h⟩ := h
  cases h
  exact ⟨r, rfl⟩

/-- The equivalent of a gate is valid, or it is a single rotation by something that is not a number. -/
theorem toNative_overflow_cases {g : Gate Float} {out : List (Gate Float)} (h : g.toNative p = .ok out) :
    g.overflows = true ∧ (∃ q, out = [.rotation .z q nan]) ∨
      g.overflows = false ∧ ∀ g' ∈ out, g'.validate = .ok () := by
  obtain ⟨hfits, hout⟩ := toNative_eq_ok_iff.1 h
  have hvalid := hfits.1
  cases g with
  | general q e =>
    obtain ⟨r, rfl⟩ := decompose_eq_gates hout
    have hangles := (validate_eq_ok_iff (fun c t h => by cases h)).1 hvalid
    simp only [angles, List.forall_mem_cons] at hangles
    obtain ⟨htheta, hphi, hlambda, -⟩ := hangles
    rcases r.gates_cases q htheta hphi hlambda with ⟨hover, hgates⟩ | hfine
    · exact .inl ⟨hover, q, hgates⟩
    · exact .inr hfine
  | cx control target =>
    refine .inr ⟨rfl, ?_⟩
    rw [Profile.supports_cx hfits, if_pos rfl] at hout
    cases hout
    simpa using hvalid
  | rotation a q θ =>
    refine .inr ⟨rfl, ?_⟩
    have hquarter : Scalar.isFinite (90.0 : Float) = true ∧ Scalar.isFinite (-90.0 : Float) = true := by decide
    split at hout
    · cases hout
      simpa using hvalid
    · cases a with
      | z => cases hout
      | x =>
        cases hout
        simp_all [Gate.validate_rotation_iff]
      | y =>
        cases hout
        simp_all [Gate.validate_rotation_iff]

end Gate

namespace Pass

variable {c : Circuit Float}

/-- Making the gates of a circuit native succeeds unless one of them overflows. -/
theorem output_nativeSubstitution_cases (hc : c.WellFormed) (hw : c.width ≤ p.width) :
    (∃ g ∈ c.gates, g.overflows = true) ∧
        nativeSubstitution.output p c = .error (.circuit (.nonFiniteAngle "Z" nan)) ∨
      (∀ g ∈ c.gates, g.overflows = false) ∧ ∃ d, nativeSubstitution.output p c = .ok d := by
  have hfits (g : Gate Float) (hg : g ∈ c.gates) : g.Fits p.width := Gate.Fits.mono (hc.2 g hg) hw
  obtain ⟨out, hout⟩ := Gate.allToNative_eq_ok hfits
  have hmem {g' : Gate Float} : g' ∈ out ↔ _ := Gate.mem_allToNative hout
  have hqubits : ∀ g' ∈ out, ∀ q ∈ g'.qubits, q.index.toNat < c.width := by
    intro g' hg'
    obtain ⟨g, hg, here, hhere, hg'⟩ := hmem.1 hg'
    rw [Gate.qubits_of_mem_toNative hhere hg']
    exact (hc.2 g hg).2
  have houtput : nativeSubstitution.output p c = c.rebuild out := by
    have hwidth : p.checkWidth (α := Float) c.width = .ok () := Profile.checkWidth_eq_ok_iff.2 hw
    simp only [output, hwidth, hout]
    rfl
  rw [houtput]
  rcases Circuit.rebuild_cases hc.1 hqubits with ⟨hvalid, hok⟩ | ⟨g', hg', e, he, herror⟩
  · refine .inr ⟨fun g hg => ?_, _, hok⟩
    obtain ⟨here, hhere⟩ := Gate.toNative_eq_ok (hfits g hg)
    rcases Gate.toNative_overflow_cases hhere with ⟨-, q, rfl⟩ | ⟨hnot, -⟩
    · have hnan := hvalid (.rotation .z q nan) (hmem.2 ⟨g, hg, _, hhere, by simp⟩)
      rw [Gate.validate_rotation_iff] at hnan
      cases hnan
    · exact hnot
  · obtain ⟨g, hg, here, hhere, hg'⟩ := hmem.1 hg'
    rcases Gate.toNative_overflow_cases hhere with ⟨hover, q, rfl⟩ | ⟨-, hvalid⟩
    · rw [List.mem_singleton.1 hg'] at he
      cases he
      exact .inl ⟨⟨g, hg, hover⟩, herror⟩
    · rw [hvalid g' hg'] at he
      cases he

end Pass

/-- **Native gates are valid unless outer angles overflow.** Every gate that fits on the target has an equivalent, which is
the decomposition if it is a general gate, and it is valid exactly if the gate does not overflow. So the gates of a circuit
that is no wider than the target are made native exactly if none of them overflows; else the circuit is left as it was. -/
theorem native_gates_valid_iff (p : Profile) :
    (∀ g : Gate Float, g.Fits p.width → ∃ out, g.toNative p = .ok out ∧
      ((∀ g' ∈ out, g'.validate = .ok ()) ↔ g.overflows = false)) ∧
      (∀ (q : Qubit) (e : Euler Float), (Gate.general q e).Fits p.width →
        (Gate.general q e).toNative p = Sequence.decompose p q e) ∧
      ∀ c : Circuit Float, c.WellFormed → c.width ≤ p.width →
        ((∃ d, (Pass.nativeSubstitution.run p).apply c = (.ok (), d)) ↔ ∀ g ∈ c.gates, g.overflows = false) ∧
          ((∃ g ∈ c.gates, g.overflows = true) →
            (Pass.nativeSubstitution.run p).apply c = (.error (.circuit (.nonFiniteAngle "Z" nan)), c)) := by
  refine ⟨fun g hg => ?_, fun q e h => Gate.toNative_general h, fun c hc hw => ?_⟩
  · obtain ⟨out, hout⟩ := Gate.toNative_eq_ok hg
    refine ⟨out, hout, ?_⟩
    rcases Gate.toNative_overflow_cases hout with ⟨hover, q, rfl⟩ | ⟨hnot, hvalid⟩
    · have hnan : Scalar.isFinite (nan : Float) = false := by decide
      simp [hover, Gate.validate_rotation_iff, hnan]
    · exact iff_of_true hvalid hnot
  · simp only [Pass.apply_run_eq_ok_iff, Pass.apply_run_eq_error_iff]
    rcases Pass.output_nativeSubstitution_cases hc hw with ⟨⟨g, hg, hover⟩, herror⟩ | ⟨hnone, d, hok⟩
    · rw [herror]
      refine ⟨iff_of_false (fun h => ?_) fun hnone => ?_, fun _ => ⟨rfl, trivial⟩⟩
      · obtain ⟨d, hd⟩ := h
        cases hd
      · rw [hnone g hg] at hover
        cases hover
    · rw [hok]
      refine ⟨iff_of_true ⟨d, rfl⟩ hnone, ?_⟩
      rintro ⟨g, hg, hover⟩
      rw [hnone g hg] at hover
      cases hover

/-- A general gate of a whole turn, with a large outer angle. -/
def fullySpun : Circuit Float where
  width := 2
  gates := [.general ⟨0⟩ ⟨360.0, 1e308, 5.0⟩, .cx ⟨0⟩ ⟨1⟩]

/-- A general gate without a middle rotation, whose outer angles overflow. -/
def overSpun : Circuit Float where
  width := 2
  gates := [.cx ⟨0⟩ ⟨1⟩, .general ⟨1⟩ ⟨0.0, 1e308, 1e308⟩]

theorem native_gates_valid_iff_overSpun :
    (Gate.general ⟨0⟩ ⟨360.0, 1e308, 5.0⟩ : Gate Float).Fits 2 ∧
      (∃ out, (Gate.general ⟨0⟩ ⟨360.0, 1e308, 5.0⟩ : Gate Float).toNative (.pair .yz) = .ok out ∧
        ((∀ g' ∈ out, g'.validate = .ok ()) ↔
          (Gate.general ⟨0⟩ ⟨360.0, 1e308, 5.0⟩ : Gate Float).overflows = false)) ∧
      (Gate.general ⟨0⟩ ⟨360.0, 1e308, 5.0⟩ : Gate Float).toNative (.pair .yz) =
        Sequence.decompose (.pair .yz) ⟨0⟩ ⟨360.0, 1e308, 5.0⟩ ∧
      fullySpun.WellFormed ∧ (∃ d, (Pass.nativeSubstitution.run (.pair .yz)).apply fullySpun = (.ok (), d)) ∧
      overSpun.WellFormed ∧ (∃ g ∈ overSpun.gates, g.overflows = true) ∧
      (Pass.nativeSubstitution.run (.pair .yz)).apply overSpun =
        (.error (.circuit (.nonFiniteAngle "Z" nan)), overSpun) := by
  have hfits : (Gate.general ⟨0⟩ ⟨360.0, 1e308, 5.0⟩ : Gate Float).Fits 2 := by
    unfold Gate.Fits
    decide +kernel
  have hfull : fullySpun.WellFormed ∧ ∀ g ∈ fullySpun.gates, g.overflows = false := by
    unfold Circuit.WellFormed
    decide +kernel
  have hover : overSpun.WellFormed ∧ ∃ g ∈ overSpun.gates, g.overflows = true := by
    unfold Circuit.WellFormed
    decide +kernel
  obtain ⟨hgate, hdecompose, hcircuit⟩ := native_gates_valid_iff (.pair .yz)
  exact ⟨hfits, hgate _ hfits, hdecompose _ _ hfits, hfull.1, (hcircuit fullySpun hfull.1 (by decide)).1.2 hfull.2,
    hover.1, hover.2, (hcircuit overSpun hover.1 (by decide)).2 hover.2⟩

/-- A valid gate on an existing qubit whose native equivalent is not valid, so that its circuit cannot be made native. -/
theorem outer_angles_overflow :
    (Gate.general ⟨1⟩ ⟨0.0, 1e308, 1e308⟩ : Gate Float).Fits 2 ∧
      (Gate.general ⟨1⟩ ⟨0.0, 1e308, 1e308⟩ : Gate Float).toNative (.pair .yz) = .ok [.rotation .z ⟨1⟩ nan] ∧
      (Gate.rotation .z ⟨1⟩ nan : Gate Float).validate = .error (.nonFiniteAngle "Z" nan) ∧
      overSpun.WellFormed ∧
      (Pass.nativeSubstitution.run (.pair .yz)).apply overSpun =
        (.error (.circuit (.nonFiniteAngle "Z" nan)), overSpun) := by
  unfold Gate.Fits Circuit.WellFormed
  decide +kernel

end RotationCircuits
