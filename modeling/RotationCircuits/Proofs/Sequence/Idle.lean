import RotationCircuits.Proofs.Sequence.Settled

/-!
# Idle rotations

A rotation by a whole number of turns is idle. No rendering holds one (`Rendering.not_idle_of_mem_gates`), so a sequence
that is synthesized anew holds none. The simplifier drops an idle rotation that stands alone and merges one with a
neighbour around the same axis, but it does not touch one whose neighbours turn around other axes: `Turn.Spared` says which
rotations of a window are kept. So an optimized sequence has idle rotations exactly if it is such a window, simplified
(`kept_idle_rotations`), and they are gates of the window.
-/

namespace RotationCircuits

open Hardware (Profile)

variable {α : Type} [Scalar α]

/-- A rotation by a whole number of turns. -/
def Gate.Idle (g : Gate α) : Prop := ∃ θ, g.angle? = some θ ∧ Angle.isZero θ = true

theorem Gate.idle_rotation_iff {a : Axis} {q : Qubit} {θ : α} :
    (Gate.rotation a q θ).Idle ↔ Angle.isZero θ = true := by
  simp [Idle, angle?]

/-! ## Renderings -/

namespace Rendering

variable {q : Qubit} {g : Gate α}

theorem not_idle_of_mem_turn {axis : Axis} {angle : α} (hg : g ∈ turn axis q angle) : ¬ g.Idle := by
  obtain ⟨hzero, rfl⟩ := mem_turn_iff.1 hg
  rw [Gate.idle_rotation_iff]
  exact Bool.eq_false_iff.1 hzero

theorem not_idle_of_mem_sandwich {axis : Axis} {first mid last : α} (hg : g ∈ sandwich axis q first mid last) :
    ¬ g.Idle := by
  rcases sandwich_eq axis q first mid last with ⟨-, h⟩ | ⟨-, h⟩ <;> rw [h] at hg
  · exact not_idle_of_mem_turn hg
  · rw [List.mem_append, List.mem_append] at hg
    rcases hg with (hg | hg) | hg <;> exact not_idle_of_mem_turn hg

theorem not_idle_of_mem_gates {r : Rendering} {e : Euler α} (hg : g ∈ r.gates e q) : ¬ g.Idle := by
  cases r <;> exact not_idle_of_mem_sandwich hg

end Rendering

/-! ## Windows -/

namespace Sequence

namespace Turn

/-- A rotation by a whole number of turns. -/
def Idle (t : Turn α) : Prop := Angle.isZero t.angle = true

/-- The rotations of a window that the simplifier leaves as they are, even if they are idle: both of two around different
axes, one around another axis than the other two, which are merged and do not cancel, and all of three that are neither
merged nor a conjugation. -/
def Spared : List (Turn α) → Turn α → Prop
  | [s, t], v => s.axis ≠ t.axis ∧ v ∈ [s, t]
  | [s, t, u], v =>
    s.axis = t.axis ∧ s.axis ≠ u.axis ∧ Angle.isZero (s.angle + t.angle) = false ∧ v = u ∨
      s.axis ≠ t.axis ∧ t.axis = u.axis ∧ Angle.isZero (t.angle + u.angle) = false ∧ v = s ∨
      s.axis ≠ t.axis ∧ t.axis ≠ u.axis ∧ ¬ IsConjugation s t u ∧ v ∈ [s, t, u]
  | _, _ => False

theorem Spared.mem {ts : List (Turn α)} {v : Turn α} (h : Spared ts v) : v ∈ ts := by
  match ts, h with
  | [s, t], h => exact h.2
  | [s, t, u], h => rcases h with ⟨-, -, -, rfl⟩ | ⟨-, -, -, rfl⟩ | ⟨-, -, -, h⟩ <;> simp_all

theorem Spared.length_le {ts : List (Turn α)} {v : Turn α} (h : Spared ts v) : ts.length ≤ 3 := by
  match ts, h with
  | [_, _], _ => exact Nat.le_succ 2
  | [_, _, _], _ => exact Nat.le_refl 3

theorem not_idle_of_mem_single {s t : Turn α} (h : t ∈ single s) : ¬ t.Idle := by
  unfold single at h
  split at h
  · cases h
  · next hzero =>
    rw [List.mem_singleton] at h
    subst h
    exact hzero

theorem mem_pair_iff {s t v : Turn α} (hv : v.Idle) : v ∈ pair s t ↔ s.axis ≠ t.axis ∧ v ∈ [s, t] := by
  by_cases h : s.axis = t.axis
  · rw [pair_of_axis_eq h]
    exact iff_of_false (fun hmem => not_idle_of_mem_single hmem hv) (fun hmem => hmem.1 h)
  · rw [pair_of_axis_ne h]
    exact (and_iff_right h).symm

theorem mem_triple_iff {s t u v : Turn α} (hv : v.Idle) : v ∈ triple s t u ↔ Spared [s, t, u] v := by
  have hsingle (w : Turn α) : v ∉ single w := fun hmem => not_idle_of_mem_single hmem hv
  -- What two rotations are merged to is not idle, else it would have been dropped, so it is not `v`.
  have hmerged {w : Turn α} (hw : ¬ w.Idle) : v ≠ w := fun h => hw (h ▸ hv)
  unfold Spared
  by_cases hst : s.axis = t.axis
  · rw [triple_front hst]
    split
    · grind
    · next hzero =>
      have hne : v ≠ ⟨s.axis, s.angle + t.angle⟩ := hmerged hzero
      rw [mem_pair_iff hv]
      grind
  by_cases htu : t.axis = u.axis
  · rw [triple_back hst htu]
    split
    · grind
    · next hzero =>
      have hne : v ≠ ⟨t.axis, t.angle + u.angle⟩ := hmerged hzero
      grind
  rcases triple_apart hst htu with ⟨h, hconj⟩ | ⟨hconj, h | h⟩ <;> rw [h] <;> grind

/-- An idle rotation stays in a window exactly if it is spared. -/
theorem mem_simplify_iff {ts : List (Turn α)} (hlen : ts.length ≤ 3) {v : Turn α} (hv : v.Idle) :
    v ∈ simplify ts ↔ Spared ts v := by
  match ts, hlen with
  | [], _ => simp [simplify, short, Spared]
  | [t], _ => exact iff_of_false (fun hmem => not_idle_of_mem_single hmem hv) id
  | [s, t], _ => exact mem_pair_iff hv
  | [s, t, u], _ => exact mem_triple_iff hv

end Turn

/-! ## Optimized sequences -/

variable {p : Profile} {q : Qubit} {gs out : List (Gate α)} {g : Gate α}

theorem not_idle_of_mem_synthesize (h : synthesize p q gs = .ok out) (hg : g ∈ out) : ¬ g.Idle := by
  obtain ⟨r, e, -, rfl⟩ := exists_rendering_of_synthesize h
  exact Rendering.not_idle_of_mem_gates hg

/-- Gates on one qubit whose simplified form is native are rotations. -/
theorem eq_gates_of_supportsAll_peephole (hq : ∀ g ∈ gs, g.qubit? = some q)
    (hnative : p.supportsAll (peephole gs) = true) : ∃ ts, gs = Turn.gates q ts := by
  rcases peephole_cases gs with h | ⟨r, ts, rfl, hne, -⟩
  · rw [h, Profile.supportsAll, List.all_eq_true] at hnative
    exact ⟨turns gs, (gates_turns (.of_supports hnative hq)).symm⟩
  · obtain ⟨t, ts, rfl⟩ := List.exists_cons_of_ne_nil hne
    have hr : some r = some q := hq (.rotation t.axis r t.angle) List.mem_cons_self
    cases hr
    exact ⟨t :: ts, rfl⟩

/-- A sequence with an idle rotation is a simplified window. -/
theorem exists_window_of_idle (h : optimize p gs = .ok out) (hg : g ∈ out) (hidle : g.Idle) :
    ∃ q ts, gs = Turn.gates q ts ∧ ts.length ≤ 3 ∧ out = peephole gs := by
  rcases optimize_cases h with ⟨-, rfl⟩ | ⟨q, ⟨-, hgs⟩, ⟨-, hmade⟩ | ⟨hlen, hchosen⟩⟩
  · cases hg
  · exact absurd hidle (not_idle_of_mem_synthesize hmade hg)
  · rcases choose_cases hchosen with ⟨hout, hnative⟩ | ⟨hmade, -⟩
    · obtain ⟨ts, rfl⟩ := eq_gates_of_supportsAll_peephole (fun g hg => (hgs g hg).1) hnative
      exact ⟨q, ts, rfl, by simpa [Turn.gates, window] using hlen, hout⟩
    · exact absurd hidle (not_idle_of_mem_synthesize hmade hg)

/-- The idle gates of a simplified window are those that are spared. -/
theorem mem_peephole_iff {ts : List (Turn α)} (hlen : ts.length ≤ 3) (hidle : g.Idle) :
    g ∈ peephole (Turn.gates q ts) ↔ ∃ v, Turn.Spared ts v ∧ v.Idle ∧ g = .rotation v.axis q v.angle := by
  rw [peephole_gates, Turn.gates, List.mem_map]
  constructor
  · rintro ⟨v, hv, rfl⟩
    have hvidle : v.Idle := Gate.idle_rotation_iff.1 hidle
    exact ⟨v, (Turn.mem_simplify_iff hlen hvidle).1 hv, hvidle, rfl⟩
  · rintro ⟨v, hv, hvidle, rfl⟩
    exact ⟨v, (Turn.mem_simplify_iff hlen hvidle).2 hv, rfl⟩

theorem two_le_length_of_idle {ts : List (Turn α)} (hlen : ts.length ≤ 3) (hidle : g.Idle)
    (hg : g ∈ peephole (Turn.gates q ts)) : 2 ≤ (peephole (Turn.gates q ts)).length := by
  have hsettled := Turn.settled_simplify hlen
  rw [peephole_gates] at hg ⊢
  match hts : Turn.simplify ts with
  | [] =>
    rw [hts] at hg
    cases hg
  | [t] =>
    rw [hts, Turn.gates, List.map_singleton, List.mem_singleton] at hg
    rw [hg, Gate.idle_rotation_iff, hsettled.nonzero t hts] at hidle
    cases hidle
  | _ :: _ :: _ => simp [Turn.gates]

/-- **Which idle rotations are kept.** An idle rotation of an optimized sequence is a gate of the sequence before, which has
at most three gates; two or more gates are left, and they are not synthesized anew. A gate of the result is such a rotation
exactly if the result is a simplified window in which it is spared. -/
theorem kept_idle_rotations (p : Profile) {gs out : List (Gate α)} (h : optimize p gs = .ok out) :
    (∀ g ∈ out, g.Idle →
      g ∈ gs ∧ gs.length ≤ window ∧ 2 ≤ out.length ∧ ∀ q, synthesize p q gs ≠ .ok out) ∧
      ∀ g, g ∈ out ∧ g.Idle ↔
        ∃ q ts v, gs = Turn.gates q ts ∧ out = peephole gs ∧ Turn.Spared ts v ∧ v.Idle ∧
          g = .rotation v.axis q v.angle := by
  refine ⟨fun g hg hidle => ?_, fun g => ⟨?_, ?_⟩⟩
  · obtain ⟨q, ts, rfl, hlen, rfl⟩ := exists_window_of_idle h hg hidle
    obtain ⟨v, hv, -, rfl⟩ := (mem_peephole_iff hlen hidle).1 hg
    refine ⟨List.mem_map.2 ⟨v, hv.mem, rfl⟩, by simpa [Turn.gates, window] using hlen,
      two_le_length_of_idle hlen hidle hg, fun r hmade => ?_⟩
    exact not_idle_of_mem_synthesize hmade hg hidle
  · rintro ⟨hg, hidle⟩
    obtain ⟨q, ts, rfl, hlen, rfl⟩ := exists_window_of_idle h hg hidle
    obtain ⟨v, hv⟩ := (mem_peephole_iff hlen hidle).1 hg
    exact ⟨q, ts, v, rfl, rfl, hv⟩
  · rintro ⟨q, ts, v, rfl, rfl, hv, hvidle, rfl⟩
    have hidle : (Gate.rotation v.axis q v.angle).Idle := Gate.idle_rotation_iff.2 hvidle
    exact ⟨(mem_peephole_iff hv.length_le hidle).2 ⟨v, hv, hvidle, rfl⟩, hidle⟩

/-- A full turn in front of two rotations that are merged. -/
def idleFirst : List (Turn Float) := [⟨.z, 360.0⟩, ⟨.x, 10.0⟩, ⟨.x, 20.0⟩]

theorem kept_idle_rotations_idleFirst :
    optimize .standard (Turn.gates ⟨0⟩ idleFirst) = .ok [.rotation .z ⟨0⟩ 360.0, .rotation .x ⟨0⟩ 30.0] ∧
      (Gate.rotation .z ⟨0⟩ 360.0 : Gate Float).Idle ∧
      Gate.rotation .z ⟨0⟩ 360.0 ∈ Turn.gates ⟨0⟩ idleFirst ∧
      ∃ q ts v, Turn.gates ⟨0⟩ idleFirst = Turn.gates q ts ∧
        [.rotation .z ⟨0⟩ 360.0, .rotation .x ⟨0⟩ 30.0] = peephole (Turn.gates ⟨0⟩ idleFirst) ∧ Turn.Spared ts v ∧
        v.Idle ∧ Gate.rotation .z ⟨0⟩ 360.0 = .rotation v.axis q v.angle := by
  have hopt : optimize .standard (Turn.gates ⟨0⟩ idleFirst) =
      .ok [.rotation .z ⟨0⟩ 360.0, .rotation .x ⟨0⟩ 30.0] := by decide +kernel
  have hidle : (Gate.rotation .z ⟨0⟩ 360.0 : Gate Float).Idle := ⟨360.0, rfl, by decide +kernel⟩
  obtain ⟨hmem, hiff⟩ := kept_idle_rotations .standard hopt
  exact ⟨hopt, hidle, (hmem _ List.mem_cons_self hidle).1, (hiff _).1 ⟨List.mem_cons_self, hidle⟩⟩

/-- Two rotations that are merged and do not cancel, and a rotation by zero around another axis. -/
def idleLast : List (Gate Float) := [.rotation .x ⟨0⟩ 30.0, .rotation .x ⟨0⟩ 40.0, .rotation .y ⟨0⟩ 0.0]

/-- Not all idle rotations are removed. -/
theorem idle_rotation_survives :
    (∀ g ∈ idleLast, g.validate = .ok () ∧ g.qubit? = some ⟨0⟩) ∧
      optimize .standard idleLast = .ok [.rotation .x ⟨0⟩ 70.0, .rotation .y ⟨0⟩ 0.0] ∧
      (Gate.rotation .y ⟨0⟩ 0.0 : Gate Float).Idle := by
  refine ⟨?_, by decide +kernel, ⟨0.0, rfl, by decide +kernel⟩⟩
  simp only [← Gate.isValid_iff]
  decide +kernel

end Sequence

end RotationCircuits
