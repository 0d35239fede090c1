import RotationCircuits.Binary64
import RotationCircuits.Proofs.Shape

/-!
# The rendering that is selected

Durations are added up in 64-bit words, which gives the time that gates take modulo the size of a word
(`Hardware.Profile.toNat_totalDuration`). As long as the sums fit, the rendering that takes the least time of those that a
target runs is selected, and `zyz` if both take the same time (`select_cheapest_native`).
-/

namespace RotationCircuits

open Hardware (Profile)

variable {α : Type}

/-! ## Time -/

namespace Hardware.Profile

/-- The time that gates take one after the other. General gates, which no target runs, are not counted. -/
def time (p : Profile) : List (Gate α) → Nat
  | [] => 0
  | .rotation a _ _ :: gs => (p.durations.ofAxis a).toNat + p.time gs
  | .cx .. :: gs => p.durations.cx.toNat + p.time gs
  | .general .. :: gs => p.time gs

/-- A sum of durations is the time modulo the size of a word. -/
theorem toNat_totalDuration {p : Profile} {gs : List (Gate α)} {d : UInt64} (h : p.totalDuration gs = .ok d) :
    d.toNat = p.time gs % UInt64.size := by
  induction gs generalizing d with
  | nil =>
    cases h
    rfl
  | cons g gs ih =>
    cases hd : p.totalDuration gs with
    | error e =>
      rw [totalDuration, hd] at h
      cases g <;> cases h
    | ok d' =>
      rw [totalDuration, hd] at h
      cases g with
      | rotation a q θ =>
        cases h
        rw [UInt64.toNat_add, ih hd, time]
        exact Nat.add_mod_mod ..
      | cx control target =>
        cases h
        rw [UInt64.toNat_add, ih hd, time]
        exact Nat.add_mod_mod ..
      | general q e => cases h

end Hardware.Profile

namespace Rendering

variable [Scalar α] {p : Profile} {e : Euler α} {q : Qubit}

/-- The times of all renderings that the target runs fit in 64 bits. -/
def Fits (p : Profile) (e : Euler α) (q : Qubit) : Prop :=
  ∀ r : Rendering, p.basis.contains r.middle = true → p.time (r.gates e q) < UInt64.size

theorem Fits.toNat_cost (h : Fits p e q) {r : Rendering} (hr : p.basis.contains r.middle = true) :
    (cost p e q r).toNat = p.time (r.gates e q) := by
  rw [Profile.toNat_totalDuration (totalDuration_gates hr e q), Nat.mod_eq_of_lt (h r hr)]

/-! ## The least time -/

theorem time_cheapest_le (h : Fits p e q) {r : Rendering} (hr : p.basis.contains r.middle = true) :
    p.time ((cheapest p e q).gates e q) ≤ p.time (r.gates e q) := by
  rw [← h.toNat_cost (contains_middle_cheapest p e q), ← h.toNat_cost hr, ← UInt64.le_iff_toNat_le]
  unfold cheapest
  split
  · next hcheap =>
    cases r with
    | zxz => exact UInt64.le_refl _
    | zyz => exact UInt64.le_of_lt (hcheap.2 hr)
  · next hcheap =>
    cases r with
    | zyz => exact UInt64.le_refl _
    | zxz => exact UInt64.not_lt.1 fun hlt => hcheap ⟨hr, fun _ => hlt⟩

theorem cheapest_eq_zyz_iff (h : Fits p e q) :
    cheapest p e q = zyz ↔ p.basis.contains .y = true ∧
      (p.basis.contains .x = true → p.time (zyz.gates e q) ≤ p.time (zxz.gates e q)) := by
  constructor
  · intro hcheapest
    have hy := contains_middle_cheapest p e q
    rw [hcheapest] at hy
    refine ⟨hy, fun hx => ?_⟩
    have hle := time_cheapest_le (r := zxz) h hx
    rwa [hcheapest] at hle
  · rintro ⟨hy, hle⟩
    refine if_neg ?_
    rintro ⟨hx, hlt⟩
    have hless := UInt64.lt_iff_toNat_lt.1 (hlt hy)
    rw [h.toNat_cost (r := zxz) hx, h.toNat_cost (r := zyz) hy] at hless
    exact Nat.not_lt_of_le (hle hx) hless

end Rendering

variable [Scalar α]

/-- **The cheapest native rendering is selected.** Sums of durations that fit in 64 bits are times. Then a rendering is
selected, all its gates are native, and no rendering that the target runs takes less time. It is `zyz` exactly if the target
runs `zyz` and does not run `zxz` in less time. -/
theorem select_cheapest_native (p : Profile) (e : Euler α) (q : Qubit) (h : Rendering.Fits p e q) :
    ∃ r : Rendering,
      Rendering.select p e q = .ok (r, r.gates e q) ∧
      p.basis.contains r.middle = true ∧ (∀ g ∈ r.gates e q, p.supports g = true) ∧
      (∀ r' : Rendering, p.basis.contains r'.middle = true →
        (∃ d, p.totalDuration (r'.gates e q) = .ok d ∧ d.toNat = p.time (r'.gates e q)) ∧
          p.time (r.gates e q) ≤ p.time (r'.gates e q)) ∧
      (r = .zyz ↔ p.basis.contains .y = true ∧
        (p.basis.contains .x = true →
          p.time (Rendering.zyz.gates e q) ≤ p.time (Rendering.zxz.gates e q))) := by
  have hnative := Rendering.contains_middle_cheapest p e q
  refine ⟨Rendering.cheapest p e q, Rendering.select_eq_cheapest p e q, hnative,
    (Rendering.rotationsOn_gates hnative e q).supports, fun r' hr' => ⟨?_, ?_⟩, Rendering.cheapest_eq_zyz_iff h⟩
  · exact ⟨_, Rendering.totalDuration_gates hr' e q, h.toNat_cost hr'⟩
  · exact Rendering.time_cheapest_le h hr'

-- Where a total does not fit, the rendering that takes longer can be selected.
example : ∃ p : Profile, p.durations = ⟨18446744073709551615, 1, 10, 100⟩ ∧ p.basis = .xyz ∧
    let e : Euler Float := ⟨40.0, 30.0, 60.0⟩
    Rendering.cheapest p e ⟨0⟩ = .zxz ∧ p.time (Rendering.zyz.gates e ⟨0⟩) < p.time (Rendering.zxz.gates e ⟨0⟩) :=
  ⟨⟨1, .xyz, ⟨18446744073709551615, 1, 10, 100⟩, .inl rfl, by decide⟩, rfl, rfl, by decide +kernel⟩

/-- Angles for which `zxz` has one rotation around Z less than `zyz`. -/
def quarterTurned : Euler Float := ⟨40.0, 10.0, 90.0⟩

theorem select_cheapest_native_quarterTurned :
    Rendering.Fits .standard quarterTurned ⟨0⟩ ∧
      Rendering.select .standard quarterTurned ⟨0⟩ =
        .ok (.zxz, [.rotation .x ⟨0⟩ 40.0, .rotation .z ⟨0⟩ 100.0]) ∧
      ∃ r : Rendering, Rendering.select .standard quarterTurned ⟨0⟩ = .ok (r, r.gates quarterTurned ⟨0⟩) ∧
        Profile.standard.time (r.gates quarterTurned ⟨0⟩) ≤ 20 ∧
        Profile.standard.time (Rendering.zyz.gates quarterTurned ⟨0⟩) = 30 := by
  have hx : Profile.standard.time (Rendering.zxz.gates quarterTurned ⟨0⟩) = 20 := by decide +kernel
  have hy : Profile.standard.time (Rendering.zyz.gates quarterTurned ⟨0⟩) = 30 := by decide +kernel
  have hfits : Rendering.Fits .standard quarterTurned ⟨0⟩ := by
    intro r _
    cases r with
    | zxz => exact hx ▸ by decide
    | zyz => exact hy ▸ by decide
  have hcheapest : Rendering.cheapest .standard quarterTurned ⟨0⟩ = .zxz := by decide +kernel
  have hgates : Rendering.zxz.gates quarterTurned ⟨0⟩ = [.rotation .x ⟨0⟩ 40.0, .rotation .z ⟨0⟩ 100.0] := by
    decide +kernel
  obtain ⟨r, hselect, -, -, hleast, -⟩ := select_cheapest_native .standard quarterTurned ⟨0⟩ hfits
  refine ⟨hfits, ?_, r, hselect, hx ▸ (hleast .zxz rfl).2, hy⟩
  rw [Rendering.select_eq_cheapest, hcheapest, hgates]

end RotationCircuits
