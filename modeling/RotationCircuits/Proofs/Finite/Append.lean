import RotationCircuits.Proofs.Finite.Native

/-!
# Appending the equivalent of a gate

The native equivalent of a gate is appended one gate after the other, and what was appended before a failure stays. Still it is
appended as a whole or not at all: its gates are all on the same qubits, and they are all valid unless there is only one of
them, so if the first gate fits on the circuit then all of them do (`Gate.fits_toNative`).
-/

namespace RotationCircuits

open Hardware (Profile)

/-! ## Appending one by one -/

namespace Edit

variable {α : Type} [Scalar α] {c : Circuit α}

theorem apply_pushEach_of_fits {gs : List (Gate α)} (h : ∀ g ∈ gs, g.Fits c.width) :
    (pushEach gs).apply c = (.ok (), ⟨c.width, c.gates ++ gs⟩) := by
  induction gs generalizing c with
  | nil => rw [pushEach, apply_pure, List.append_nil]
  | cons g gs ih =>
    rw [List.forall_mem_cons] at h
    have hpush : c.push g = .ok ⟨c.width, c.gates ++ [g]⟩ := Circuit.push_eq_ok_iff.2 ⟨h.1.1, h.1.2, rfl⟩
    have hrest := ih (c := ⟨c.width, c.gates ++ [g]⟩) h.2
    rw [pushEach, apply_bind, apply_update, hpush]
    dsimp only
    rw [hrest, List.append_assoc, List.singleton_append]

/-- A first gate that is refused ends the edit before anything was appended. -/
theorem apply_pushEach_of_refused {g : Gate α} {e : CircuitError α} (h : c.push g = .error e) (gs : List (Gate α)) :
    (pushEach (g :: gs)).apply c = (.error (.circuit e), c) := by
  rw [pushEach, apply_bind, apply_update, h]

/-- What appending gates one by one leaves, if all of them fit as soon as the first one does. -/
theorem apply_pushEach_cases {gs : List (Gate α)} (h : ∀ first ∈ gs.head?, first.Fits c.width → ∀ g ∈ gs, g.Fits c.width) :
    (∀ g ∈ gs, g.Fits c.width) ∧ (pushEach gs).apply c = (.ok (), ⟨c.width, c.gates ++ gs⟩) ∨
      ∃ first rest e, gs = first :: rest ∧ c.push first = .error e ∧
        (pushEach gs).apply c = (.error (.circuit e), c) := by
  cases gs with
  | nil =>
    have hnone : ∀ g ∈ ([] : List (Gate α)), g.Fits c.width := by simp
    exact .inl ⟨hnone, apply_pushEach_of_fits hnone⟩
  | cons first rest =>
    cases hpush : c.push first with
    | error e => exact .inr ⟨first, rest, e, rfl, hpush, apply_pushEach_of_refused hpush rest⟩
    | ok d =>
      obtain ⟨hvalid, hqubits, -⟩ := Circuit.push_eq_ok_iff.1 hpush
      have hall := h first rfl ⟨hvalid, hqubits⟩
      exact .inl ⟨hall, apply_pushEach_of_fits hall⟩

end Edit

/-! ## The equivalent of a gate -/

variable {p : Profile} {c d : Circuit Float} {g : Gate Float}

/-- If one gate of an equivalent fits on a register, all of them do. -/
theorem Gate.fits_toNative {out : List (Gate Float)} (h : g.toNative p = .ok out) {width : Nat} {g₁ g₂ : Gate Float}
    (h₁ : g₁ ∈ out) (h₂ : g₂ ∈ out) (hfits : g₁.Fits width) : g₂.Fits width := by
  rcases toNative_overflow_cases h with ⟨-, q, rfl⟩ | ⟨-, hvalid⟩
  · -- The sum of the outer angles overflowed, and it is the only angle.
    rw [List.mem_singleton] at h₁ h₂
    rwa [h₂, ← h₁]
  · refine ⟨hvalid g₂ h₂, ?_⟩
    rw [qubits_of_mem_toNative h h₂, ← qubits_of_mem_toNative h h₁]
    exact hfits.2

namespace Edit

theorem apply_pushNative (p : Profile) (g : Gate Float) (c : Circuit Float) :
    (pushNative p g).apply c =
      match p.checkWidth c.width, g.toNative p with
      | .error e, _ => (.error e, c)
      | .ok _, .error e => (.error e, c)
      | .ok _, .ok out => (pushEach out).apply c := by
  simp only [pushNative, checkWidth, apply_bind, apply_get, apply_ofExcept]
  cases p.checkWidth c.width <;> cases g.toNative p <;> rfl

/-- All that appending the equivalent of a gate can do. -/
theorem apply_pushNative_cases (p : Profile) (g : Gate Float) (c : Circuit Float) :
    (∃ e, (p.checkWidth c.width = .error e ∨ g.toNative p = .error e) ∧ (pushNative p g).apply c = (.error e, c)) ∨
      ∃ out, c.width ≤ p.width ∧ g.toNative p = .ok out ∧
        ((∀ g' ∈ out, g'.Fits c.width) ∧ (pushNative p g).apply c = (.ok (), ⟨c.width, c.gates ++ out⟩) ∨
          ∃ first rest e, out = first :: rest ∧ c.push first = .error e ∧
            (pushNative p g).apply c = (.error (.circuit e), c)) := by
  rw [apply_pushNative]
  cases hwidth : (p.checkWidth c.width : Except (Error Float) Unit) with
  | error e => exact .inl ⟨e, .inl rfl, rfl⟩
  | ok _ =>
    cases hout : g.toNative p with
    | error e => exact .inl ⟨e, .inr rfl, rfl⟩
    | ok out =>
      refine .inr ⟨out, Profile.checkWidth_eq_ok_iff.1 hwidth, rfl, ?_⟩
      refine apply_pushEach_cases fun first hfirst hfits g' hg' => ?_
      exact Gate.fits_toNative hout (List.mem_of_mem_head? hfirst) hg' hfits

theorem apply_pushNative_eq_error {e : Error Float} (h : (pushNative p g).apply c = (.error e, d)) :
    d = c ∧ (p.checkWidth c.width = .error e ∨ g.toNative p = .error e ∨
      ∃ first rest x, g.toNative p = .ok (first :: rest) ∧ c.push first = .error x ∧ e = .circuit x) := by
  rcases apply_pushNative_cases p g c with ⟨e', hcause, hrun⟩ | ⟨out, -, hout, ⟨-, hrun⟩ | ⟨first, rest, x, rfl, hx, hrun⟩⟩
  · rw [hrun] at h
    cases h
    exact ⟨rfl, or_assoc.1 (.inl hcause)⟩
  · rw [hrun] at h
    cases h
  · rw [hrun] at h
    cases h
    exact ⟨rfl, .inr (.inr ⟨first, rest, x, hout, hx, rfl⟩)⟩

theorem apply_pushNative_eq_ok_iff :
    (pushNative p g).apply c = (.ok (), d) ↔
      c.width ≤ p.width ∧ ∃ out, g.toNative p = .ok out ∧ (∀ first ∈ out.head?, first.Fits c.width) ∧
        d = ⟨c.width, c.gates ++ out⟩ := by
  constructor
  · intro h
    rcases apply_pushNative_cases p g c with ⟨e, -, hrun⟩ | ⟨out, hle, hout, ⟨hfits, hrun⟩ | ⟨first, rest, x, -, -, hrun⟩⟩
    · rw [hrun] at h
      cases h
    · rw [hrun] at h
      cases h
      exact ⟨hle, out, hout, fun first hfirst => hfits first (List.mem_of_mem_head? hfirst), rfl⟩
    · rw [hrun] at h
      cases h
  · rintro ⟨hle, out, hout, hfirst, rfl⟩
    have hfits : ∀ g' ∈ out, g'.Fits c.width := by
      cases out with
      | nil => simp
      | cons first rest => exact fun g' hg' => Gate.fits_toNative hout List.mem_cons_self hg' (hfirst first rfl)
    have hwidth : (p.checkWidth c.width : Except (Error Float) Unit) = .ok () := Profile.checkWidth_eq_ok_iff.2 hle
    rw [apply_pushNative, hwidth, hout]
    exact apply_pushEach_of_fits hfits

end Edit

/-- **Appending the equivalent of a gate is all or nothing.** After a failure the circuit is what it was, whether it is too wide,
the gate has no equivalent or the first gate of the equivalent is refused; there is no other failure. It succeeds exactly if
that first gate is accepted, and then the whole equivalent stands at the end of the circuit. -/
theorem pushNative_all_or_nothing (p : Profile) (g : Gate Float) (c : Circuit Float) :
    (∀ e d, (Edit.pushNative p g).apply c = (.error e, d) →
      d = c ∧ (p.checkWidth c.width = .error e ∨ g.toNative p = .error e ∨
        ∃ first rest x, g.toNative p = .ok (first :: rest) ∧ c.push first = .error x ∧ e = .circuit x)) ∧
    ∀ d, (Edit.pushNative p g).apply c = (.ok (), d) ↔
      c.width ≤ p.width ∧ ∃ out, g.toNative p = .ok out ∧ (∀ first ∈ out.head?, first.Fits c.width) ∧
        d = ⟨c.width, c.gates ++ out⟩ :=
  ⟨fun _ _ h => Edit.apply_pushNative_eq_error h, fun _ => Edit.apply_pushNative_eq_ok_iff⟩

/-- A circuit that was never checked: its gate is not on its register. -/
def unchecked : Circuit Float where
  width := 1
  gates := [.rotation .z ⟨7⟩ 5.0]

theorem pushNative_all_or_nothing_unchecked :
    (∃ e d, (Edit.pushNative (.pair .yz) (.rotation .x ⟨1⟩ 90.0)).apply unchecked = (.error e, d) ∧ d = unchecked) ∧
      (Edit.pushNative (.pair .yz) (.rotation .x ⟨0⟩ 90.0)).apply unchecked =
        (.ok (), ⟨1, unchecked.gates ++
          [.rotation .z ⟨0⟩ 90.0, .rotation .y ⟨0⟩ 90.0, .rotation .z ⟨0⟩ (-90.0)]⟩) := by
  have hrefused : (Edit.pushNative (.pair .yz) (.rotation .x ⟨1⟩ 90.0)).apply unchecked =
      (.error (.circuit (.qubitOutOfRange ⟨1⟩ 1 (some "Z"))), unchecked) := by decide +kernel
  have hnative : (Gate.rotation .x ⟨0⟩ 90.0 : Gate Float).toNative (.pair .yz) =
      .ok [.rotation .z ⟨0⟩ 90.0, .rotation .y ⟨0⟩ 90.0, .rotation .z ⟨0⟩ (-90.0)] := by decide +kernel
  have hfirst : (Gate.rotation .z ⟨0⟩ 90.0 : Gate Float).Fits 1 := by
    unfold Gate.Fits
    decide +kernel
  refine ⟨⟨_, _, hrefused, ((pushNative_all_or_nothing _ _ _).1 _ _ hrefused).1⟩, ?_⟩
  refine ((pushNative_all_or_nothing _ _ _).2 _).2 ⟨by decide, _, hnative, ?_, rfl⟩
  rintro first ⟨⟩
  exact hfirst

end RotationCircuits
