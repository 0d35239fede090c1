import RotationCircuits.Proofs.Pipeline.Skipping

/-!
# Making gates native is complete

Every valid gate on qubits of the target has a native equivalent, and nothing else has one: the two branches that report a
target which cannot run a gate are never taken. A native gate is its own equivalent, so making a circuit native a second time
changes nothing (`Pass.settled_of_nativeSubstitution`).
-/

namespace RotationCircuits

open Hardware (Profile)

variable {α : Type} [Scalar α] {p : Profile}

namespace Gate

theorem exists_toNative_iff {g : Gate α} : (∃ out, g.toNative p = .ok out) ↔ g.Fits p.width := by
  constructor
  · rintro ⟨out, h⟩
    exact (toNative_cases h).1
  · exact toNative_eq_ok

/-- A native gate that has an equivalent is this equivalent. -/
theorem eq_singleton_of_supports {g : Gate α} {out : List (Gate α)} (h : g.toNative p = .ok out)
    (hs : p.supports g = true) : out = [g] := by
  rw [toNative_of_supports (toNative_cases h).1 hs] at h
  cases h
  rfl

end Gate

theorem Rendering.select_ne_noRendering (p : Profile) (e : Euler α) (q : Qubit) :
    Rendering.select p e q ≠ .error .noRendering := by
  intro h
  obtain ⟨r, -, hselect⟩ := Rendering.select_eq_ok p e q
  rw [hselect] at h
  cases h

namespace Pass

variable {c d : Circuit α}

/-- The circuit that comes out fits on the target and has only native gates. -/
theorem supportsAll_of_nativeSubstitution (h : nativeSubstitution.output p c = .ok d) :
    d.WellFormed ∧ d.width ≤ p.width ∧ p.supportsAll d.gates = true := by
  obtain ⟨hwidth, gs, hgates, hbuild⟩ := output_eq_ok_iff.1 h
  refine ⟨Circuit.wellFormed_of_ofGates hbuild, ?_, ?_⟩
  · rw [Circuit.width_of_ofGates hbuild]
    exact hwidth
  · obtain ⟨-, -, rfl⟩ := Circuit.ofGates_eq_ok_iff.1 hbuild
    exact List.all_eq_true.2 (Gate.supports_allToNative hgates)

/-- After the gates were made native the pass has nothing to do, and it would make the same circuit again. -/
theorem settled_of_nativeSubstitution (h : nativeSubstitution.output p c = .ok d) :
    nativeSubstitution.shouldRun p d = false ∧ nativeSubstitution.output p d = .ok d := by
  obtain ⟨hwell, hwidth, hsupports⟩ := supportsAll_of_nativeSubstitution h
  have hidle : nativeSubstitution.shouldRun p d = false := by rw [shouldRun, hsupports, Bool.not_true]
  exact ⟨hidle, output_of_idle hwell hwidth hidle⟩

end Pass

/-- **Making gates native is complete.** A gate has an equivalent exactly if it is valid and its qubits exist on the target,
and it is refused for one of these reasons only, never because the target cannot run it. The equivalent is native and on the
qubits of the gate; that of a native gate is the gate itself. So a circuit that was made native has only native gates, the
pass has nothing to do on it any more, and running it again succeeds and changes nothing. All this holds whatever the
durations are; a total that wraps around only makes another native rendering the lower one. -/
theorem native_equivalents_complete (p : Profile) :
    (∀ g : Gate α, (∃ out, g.toNative p = .ok out) ↔
      g.validate = .ok () ∧ ∀ q ∈ g.qubits, q.index.toNat < p.width) ∧
    (∀ (g : Gate α) (e : Error α), g.toNative p = .error e →
      (∃ x, g.validate = .error x ∧ e = .circuit x) ∨
        ∃ q ∈ g.qubits, p.width ≤ q.index.toNat ∧ e = .circuit (.qubitOutOfRange q p.width none)) ∧
    (∀ (e : Euler α) (q : Qubit), Rendering.select p e q ≠ .error .noRendering) ∧
    (∀ (g : Gate α) (out : List (Gate α)), g.toNative p = .ok out →
      (∀ g' ∈ out, p.supports g' = true ∧ g'.qubits = g.qubits) ∧ (p.supports g = true → out = [g])) ∧
    ∀ c d : Circuit α, (Pass.nativeSubstitution.run p).apply c = (.ok (), d) →
      p.supportsAll d.gates = true ∧ Pass.nativeSubstitution.shouldRun p d = false ∧
        (Pass.nativeSubstitution.run p).apply d = (.ok (), d) := by
  refine ⟨fun g => Gate.exists_toNative_iff, fun g e h => ?_, Rendering.select_ne_noRendering p, fun g out h => ⟨?_, ?_⟩,
    fun c d h => ?_⟩
  · rcases Gate.toNative_eq_error_iff.1 h with hvalid | ⟨-, q, hq, he⟩
    · exact .inl hvalid
    · have hrange : p.width ≤ q.index.toNat := by simpa using List.find?_some hq
      exact .inr ⟨q, List.mem_of_find?_eq_some hq, hrange, he⟩
  · exact fun g' hg' => ⟨Gate.supports_toNative h g' hg', Gate.qubits_of_mem_toNative h hg'⟩
  · exact Gate.eq_singleton_of_supports h
  · rw [Pass.apply_run_eq_ok_iff] at h ⊢
    exact ⟨(Pass.supportsAll_of_nativeSubstitution h).2.2, Pass.settled_of_nativeSubstitution h⟩

/-- Two rotations, the first of them around Y. -/
def foreignY : Circuit Float where
  width := 1
  gates := [.rotation .y ⟨0⟩ 10.0, .rotation .z ⟨0⟩ 5.0]

/-- The same operation without rotations around Y. -/
def nativeXZ : Circuit Float where
  width := 1
  gates := [.rotation .z ⟨0⟩ (-90.0), .rotation .x ⟨0⟩ 10.0, .rotation .z ⟨0⟩ 90.0, .rotation .z ⟨0⟩ 5.0]

theorem native_equivalents_complete_foreignY :
    (∃ q ∈ (Gate.rotation .y ⟨2⟩ 10.0 : Gate Float).qubits, 2 ≤ q.index.toNat ∧
      (Gate.rotation .y ⟨2⟩ 10.0 : Gate Float).toNative (.pair .xz) = .error (.circuit (.qubitOutOfRange q 2 none))) ∧
    (∃ out, (Gate.rotation .y ⟨1⟩ 10.0 : Gate Float).toNative (.pair .xz) = .ok out ∧
      ∀ g' ∈ out, Profile.supports (.pair .xz) g' = true ∧ g'.qubits = [⟨1⟩]) ∧
    (∃ out, (Gate.cx ⟨1⟩ ⟨0⟩ : Gate Float).toNative (.pair .xz) = .ok out ∧ out = [.cx ⟨1⟩ ⟨0⟩]) ∧
    (Pass.nativeSubstitution.run (.pair .xz)).apply foreignY = (.ok (), nativeXZ) ∧
    Profile.supportsAll (.pair .xz) nativeXZ.gates = true ∧
    Pass.nativeSubstitution.shouldRun (.pair .xz) nativeXZ = false ∧
    (Pass.nativeSubstitution.run (.pair .xz)).apply nativeXZ = (.ok (), nativeXZ) := by
  obtain ⟨hcomplete, hrefused, -, hnative, hcircuit⟩ := native_equivalents_complete (α := Float) (.pair .xz)
  have hmissing : (Gate.rotation .y ⟨2⟩ 10.0 : Gate Float).toNative (.pair .xz) =
      .error (.circuit (.qubitOutOfRange ⟨2⟩ 2 none)) := by decide +kernel
  have hvalid : (Gate.rotation .y ⟨2⟩ 10.0 : Gate Float).validate = .ok () := by decide +kernel
  have hrun : (Pass.nativeSubstitution.run (.pair .xz)).apply foreignY = (.ok (), nativeXZ) := by decide +kernel
  obtain ⟨outy, hy⟩ := (hcomplete (.rotation .y ⟨1⟩ 10.0)).2 (by decide +kernel)
  obtain ⟨outcx, hcx⟩ := (hcomplete (.cx ⟨1⟩ ⟨0⟩)).2 (by decide +kernel)
  refine ⟨?_, ⟨outy, hy, (hnative _ _ hy).1⟩, ⟨outcx, hcx, (hnative _ _ hcx).2 rfl⟩, hrun, hcircuit _ _ hrun⟩
  rcases hrefused _ _ hmissing with ⟨x, hx, -⟩ | ⟨q, hq, hrange, he⟩
  · rw [hvalid] at hx
    cases hx
  · exact ⟨q, hq, hrange, hmissing.trans (congrArg _ he)⟩

end RotationCircuits
