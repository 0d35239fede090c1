import RotationCircuits.Proofs.Shape

/-!
# Native equivalents

A gate has a native equivalent exactly if it is valid and its qubits exist on the target (`Gate.toNative_cases`,
`Gate.toNative_eq_ok`). The equivalent is the gate itself or consists of native rotations of its qubit, so making gates
native leaves the CX gates where they are (`Gate.filter_isCx_allToNative`).
-/

namespace RotationCircuits

open Hardware (Profile)

variable {α : Type}

theorem Gate.isCx_eq_false_of_qubit? {g : Gate α} {q : Qubit} (h : g.qubit? = some q) : g.isCx = false := by
  cases g with
  | rotation a r θ => rfl
  | cx control target => cases h
  | general r e => rfl

/-- Two qubits and standard durations. -/
def Hardware.Profile.pair (basis : Hardware.Basis) : Profile :=
  ⟨2, basis, .standard, .inr rfl, Profile.standard.positive⟩

variable {p : Profile} {q : Qubit}

theorem Hardware.Profile.RotationsOn.filter_isCx {gs : List (Gate α)} (h : p.RotationsOn q gs) :
    gs.filter Gate.isCx = [] := by
  rw [List.filter_eq_nil_iff]
  intro g hg
  simp [Gate.isCx_eq_false_of_qubit? (h.qubit?_eq g hg)]

variable [Scalar α]

/-- A target runs every CX whose qubits it has. -/
theorem Hardware.Profile.supports_cx {control target : Qubit} (h : (Gate.cx control target : Gate α).Fits p.width) :
    p.supports (Gate.cx control target : Gate α) = true := by
  have hw : p.width = 2 := by
    have := h.two_le
    have := p.width_eq
    omega
  simp [supports, hw, Gate.isValid_iff.2 h.1]

theorem Sequence.validateAll_singleton_eq_ok_iff {g : Gate α} : validateAll [g] = .ok () ↔ g.validate = .ok () := by
  rw [validateAll_eq_ok_iff, List.forall_mem_singleton]

theorem Sequence.validateAll_singleton_eq_error_iff {g : Gate α} {e : Error α} :
    validateAll [g] = .error e ↔ ∃ x, g.validate = .error x ∧ e = .circuit x := by
  unfold validateAll
  cases g.validate with
  | ok u => simp [validateAll]
  | error x => simp [eq_comm]

namespace Gate

/-! ## A single gate -/

theorem decompose_eq_ok {e : Euler α} (h : (Gate.general q e).Fits p.width) :
    ∃ out, Sequence.decompose p q e = .ok out := by
  obtain ⟨r, -, hsel⟩ := Rendering.select_eq_ok p e q
  refine ⟨r.gates e q, ?_⟩
  have hv : Sequence.validateAll [Gate.general q e] = .ok () := Sequence.validateAll_singleton_eq_ok_iff.2 h.1
  have hq : (p.checkQubit q : Except (Error α) Unit) = .ok () :=
    Hardware.Profile.checkQubit_eq_ok_iff.2 (h.2 q (by simp [qubits]))
  rw [Sequence.decompose, hv, hq, hsel]
  rfl

theorem rotationsOn_decompose {e : Euler α} {out : List (Gate α)} (h : Sequence.decompose p q e = .ok out) :
    p.RotationsOn q out := by
  obtain ⟨r, hr, hsel⟩ := Rendering.select_eq_ok p e q
  simp only [Sequence.decompose, check_bind_eq_ok, hsel] at h
  obtain ⟨-, -, h⟩ := h
  cases h
  exact Rendering.rotationsOn_gates hr e q

/-- The gates that replace a rotation are native rotations of the same qubit. -/
theorem rotationsOn_substitute {g : Gate α} {out : List (Gate α)} (hs : p.supports g = false)
    (h : g.substitute p = .ok out) : ∃ q, g.qubit? = some q ∧ p.RotationsOn q out := by
  have hz := p.contains_z
  cases g with
  | cx control target => cases h
  | general q e => exact ⟨q, rfl, rotationsOn_decompose h⟩
  | rotation a q θ =>
    refine ⟨q, rfl, ?_⟩
    cases a with
    | z => cases h
    | x =>
      -- A basis without X has Y.
      have hy := p.contains_x_or_contains_y.resolve_left (Bool.eq_false_iff.1 hs)
      cases h
      simp [Profile.RotationsOn, hy, hz]
    | y =>
      have hx := p.contains_x_or_contains_y.resolve_right (Bool.eq_false_iff.1 hs)
      cases h
      simp [Profile.RotationsOn, hx, hz]

theorem toNative_eq_ok_iff {g : Gate α} {out : List (Gate α)} :
    g.toNative p = .ok out ↔ g.Fits p.width ∧ (if p.supports g then .ok [g] else g.substitute p) = Except.ok out := by
  rw [toNative, check_bind_eq_ok, check_bind_eq_ok, Sequence.validateAll_singleton_eq_ok_iff,
    Hardware.Profile.checkQubits_eq_ok_iff, Fits, and_assoc]
  rfl

/-- A gate that fits and is not native is replaced. -/
theorem toNative_eq_substitute {g : Gate α} (hfits : g.Fits p.width) (hs : p.supports g = false) :
    g.toNative p = g.substitute p := by
  rw [toNative, Sequence.validateAll_singleton_eq_ok_iff.2 hfits.1, Hardware.Profile.checkQubits_eq_ok_iff.2 hfits.2, hs]
  rfl

/-- A gate that has an equivalent fits on the target, and the equivalent is the gate itself or native rotations of its
qubit. -/
theorem toNative_cases {g : Gate α} {out : List (Gate α)} (h : g.toNative p = .ok out) :
    g.Fits p.width ∧
      (out = [g] ∧ p.supports g = true ∨ ∃ q, g.qubit? = some q ∧ p.RotationsOn q out) := by
  obtain ⟨hfit, h⟩ := toNative_eq_ok_iff.1 h
  refine ⟨hfit, ?_⟩
  cases hs : p.supports g with
  | true =>
    rw [hs, if_pos rfl] at h
    cases h
    exact .inl ⟨rfl, rfl⟩
  | false =>
    rw [hs, if_neg Bool.false_ne_true] at h
    exact .inr (rotationsOn_substitute hs h)

/-- Every gate that fits on the target has an equivalent. -/
theorem toNative_eq_ok {g : Gate α} (h : g.Fits p.width) : ∃ out, g.toNative p = .ok out := by
  simp only [toNative_eq_ok_iff, h, true_and]
  cases hs : p.supports g with
  | true => exact ⟨[g], rfl⟩
  | false =>
    cases g with
    | cx control target =>
      rw [Hardware.Profile.supports_cx h] at hs
      cases hs
    | general q e => exact decompose_eq_ok h
    | rotation a q θ =>
      cases a with
      | z =>
        rw [Profile.supports, p.contains_z] at hs
        cases hs
      | x => exact ⟨_, rfl⟩
      | y => exact ⟨_, rfl⟩

/-- The only reasons to refuse a gate are its angles, its CX pair and its qubits. The first check that fails is reported. -/
theorem toNative_eq_error_iff {g : Gate α} {e : Error α} :
    g.toNative p = .error e ↔
      (∃ x, g.validate = .error x ∧ e = .circuit x) ∨
        g.validate = .ok () ∧ ∃ q, g.qubits.find? (fun q => !decide (q.index.toNat < p.width)) = some q ∧
          e = .circuit (.qubitOutOfRange q p.width none) := by
  rw [← Sequence.validateAll_singleton_eq_error_iff, ← Profile.checkQubits_eq_error_iff,
    ← Sequence.validateAll_singleton_eq_ok_iff]
  constructor
  · intro h
    rcases bind_eq_error.1 h with hv | ⟨_, hv, hrest⟩
    · exact .inl hv
    rcases bind_eq_error.1 hrest with hq | ⟨_, hq, -⟩
    · exact .inr ⟨hv, hq⟩
    · -- A gate that passes both checks has an equivalent.
      have hvalid := Sequence.validateAll_singleton_eq_ok_iff.1 hv
      obtain ⟨out, hout⟩ := toNative_eq_ok (p := p) ⟨hvalid, Profile.checkQubits_eq_ok_iff.1 hq⟩
      rw [hout] at h
      cases h
  · rintro (hv | ⟨hv, hq⟩)
    · exact bind_eq_error.2 (.inl hv)
    · exact bind_eq_error.2 (.inr ⟨(), hv, bind_eq_error.2 (.inl hq)⟩)

theorem toNative_eq_error {g : Gate α} {e : Error α} (h : g.toNative p = .error e) : e.isForeignGate = false := by
  rcases toNative_eq_error_iff.1 h with ⟨x, -, rfl⟩ | ⟨-, q, -, rfl⟩ <;> rfl

theorem supports_toNative {g : Gate α} {out : List (Gate α)} (h : g.toNative p = .ok out) :
    ∀ g' ∈ out, p.supports g' = true := by
  rcases (toNative_cases h).2 with ⟨rfl, hs⟩ | ⟨q, -, hrot⟩
  · simpa using hs
  · exact hrot.supports

/-- The equivalent of a gate is on the qubits of the gate. -/
theorem qubits_of_mem_toNative {g g' : Gate α} {out : List (Gate α)} (h : g.toNative p = .ok out) (hg' : g' ∈ out) :
    g'.qubits = g.qubits := by
  rcases (toNative_cases h).2 with ⟨rfl, -⟩ | ⟨q, hgq, hrot⟩
  · rw [List.mem_singleton.1 hg']
  · rw [qubits_of_qubit? hgq, qubits_of_qubit? (hrot.qubit?_eq g' hg')]

theorem filter_isCx_toNative {g : Gate α} {out : List (Gate α)} (h : g.toNative p = .ok out) :
    out.filter isCx = [g].filter isCx := by
  rcases (toNative_cases h).2 with ⟨rfl, -⟩ | ⟨q, hq, hrot⟩
  · rfl
  · rw [hrot.filter_isCx, List.filter_cons, isCx_eq_false_of_qubit? hq]
    rfl

/-! ## A list of gates -/

theorem allToNative_cons_eq_ok_iff {g : Gate α} {gs out : List (Gate α)} :
    allToNative p (g :: gs) = .ok out ↔
      ∃ here rest, g.toNative p = .ok here ∧ allToNative p gs = .ok rest ∧ out = here ++ rest := by
  simp only [allToNative, bind_eq_ok]
  constructor
  · rintro ⟨here, hh, rest, hr, h⟩
    cases h
    exact ⟨here, rest, hh, hr, rfl⟩
  · rintro ⟨here, rest, hh, hr, rfl⟩
    exact ⟨here, hh, rest, hr, rfl⟩

/-- The gates that come out are those of the equivalents of the gates that go in. -/
theorem mem_allToNative {gs out : List (Gate α)} {g' : Gate α} (h : allToNative p gs = .ok out) :
    g' ∈ out ↔ ∃ g ∈ gs, ∃ here, g.toNative p = .ok here ∧ g' ∈ here := by
  induction gs generalizing out with
  | nil =>
    cases h
    simp
  | cons g gs ih =>
    obtain ⟨here, rest, hh, hr, rfl⟩ := allToNative_cons_eq_ok_iff.1 h
    rw [List.mem_append, ih hr]
    simp [hh]

theorem allToNative_eq_ok {gs : List (Gate α)} (h : ∀ g ∈ gs, g.Fits p.width) : ∃ out, allToNative p gs = .ok out := by
  induction gs with
  | nil => exact ⟨[], rfl⟩
  | cons g gs ih =>
    rw [List.forall_mem_cons] at h
    obtain ⟨here, hhere⟩ := toNative_eq_ok h.1
    obtain ⟨rest, hrest⟩ := ih h.2
    exact ⟨_, allToNative_cons_eq_ok_iff.2 ⟨here, rest, hhere, hrest, rfl⟩⟩

theorem supports_allToNative {gs out : List (Gate α)} (h : allToNative p gs = .ok out) :
    ∀ g ∈ out, p.supports g = true := by
  intro g' hg'
  obtain ⟨g, -, here, hhere, hg'⟩ := (mem_allToNative h).1 hg'
  exact supports_toNative hhere g' hg'

theorem filter_isCx_allToNative {gs out : List (Gate α)} (h : allToNative p gs = .ok out) :
    out.filter isCx = gs.filter isCx := by
  induction gs generalizing out with
  | nil =>
    cases h
    rfl
  | cons g gs ih =>
    obtain ⟨here, rest, hh, hr, rfl⟩ := allToNative_cons_eq_ok_iff.1 h
    rw [List.filter_append, filter_isCx_toNative hh, ih hr, ← List.filter_append, List.singleton_append]

theorem allToNative_eq_error {gs : List (Gate α)} {e : Error α} (h : allToNative p gs = .error e) :
    e.isForeignGate = false := by
  induction gs with
  | nil => cases h
  | cons g gs ih =>
    rcases bind_eq_error.1 h with h | ⟨here, -, h⟩
    · exact toNative_eq_error h
    rcases bind_eq_error.1 h with h | ⟨rest, -, h⟩
    · exact ih h
    · cases h

end Gate

end RotationCircuits
