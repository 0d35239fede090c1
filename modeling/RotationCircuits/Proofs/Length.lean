import Mathlib.Data.List.Basic
import RotationCircuits.Binary64
import RotationCircuits.Proofs.Native
import RotationCircuits.Proofs.Run.Loop

/-!
# Optimizing never lengthens native gates

The simplifier uses no axis that its window does not have (`Turn.axesIn_simplify`), so native gates have a simplified form
that is native and not longer, and whichever candidate is chosen is at most as long. Run by run this goes over to whole
circuits.
-/

namespace RotationCircuits

open Hardware (Profile)

variable {α : Type} {p : Profile}

/-! ## Axes of simplified rotations -/

namespace Sequence.Turn

/-- Every axis of a list occurs in another. -/
def AxesIn (out ts : List (Turn α)) : Prop := ∀ t ∈ out, ∃ s ∈ ts, s.axis = t.axis

theorem AxesIn.of_subset {out ts : List (Turn α)} (h : out ⊆ ts) : AxesIn out ts := fun t ht => ⟨t, h ht, rfl⟩

theorem AxesIn.trans {ts us vs : List (Turn α)} (h₁ : AxesIn us ts) (h₂ : AxesIn vs us) : AxesIn vs ts := by
  intro v hv
  obtain ⟨u, hu, huv⟩ := h₂ v hv
  obtain ⟨t, ht, htu⟩ := h₁ u hu
  exact ⟨t, ht, htu.trans huv⟩

theorem AxesIn.append {ts ts' us us' : List (Turn α)} (h : AxesIn us ts) (h' : AxesIn us' ts') :
    AxesIn (us ++ us') (ts ++ ts') := by
  intro u hu
  rcases List.mem_append.1 hu with hu | hu
  · obtain ⟨t, ht, htu⟩ := h u hu
    exact ⟨t, List.mem_append_left _ ht, htu⟩
  · obtain ⟨t, ht, htu⟩ := h' u hu
    exact ⟨t, List.mem_append_right _ ht, htu⟩

variable [Scalar α]

theorem axesIn_single (t : Turn α) : AxesIn (single t) [t] := by
  unfold single
  split
  · exact .of_subset (List.nil_subset _)
  · exact .of_subset fun _ h => h

theorem axesIn_merge {s t : Turn α} {ts : List (Turn α)} (h : merge? s t = some ts) : AxesIn ts [s, t] := by
  unfold merge? at h
  split at h
  · cases h
    have hsum : AxesIn [⟨s.axis, s.angle + t.angle⟩] [s, t] := by simp [AxesIn]
    exact hsum.trans (axesIn_single _)
  · cases h

theorem axesIn_short (ts : List (Turn α)) : AxesIn (short ts) ts := by
  unfold short
  split
  · exact axesIn_single _
  · rename_i s t
    unfold pair
    cases h : merge? s t with
    | none => exact .of_subset fun _ h => h
    | some merged => exact axesIn_merge h
  · exact .of_subset fun _ h => h

/-- Both identities leave the middle axis. -/
theorem axis_of_identity? {s t u v : Turn α} (h : identity? s t u = some v) : v.axis = t.axis := by
  unfold identity? at h
  split at h
  · split at h
    · cases h
      rfl
    · split at h <;> cases h
      rfl
  · cases h

theorem axesIn_triple (s t u : Turn α) : AxesIn (triple s t u) [s, t, u] := by
  unfold triple
  cases hst : merge? s t with
  | some merged => exact ((axesIn_merge hst).append (.of_subset fun _ h => h)).trans (axesIn_short _)
  | none =>
    cases htu : merge? t u with
    | some merged =>
      have hone : AxesIn [s] [s] := .of_subset fun _ h => h
      exact (hone.append (axesIn_merge htu)).trans (axesIn_short _)
    | none =>
      cases hid : identity? s t u with
      | some v =>
        have hv : AxesIn [v] [s, t, u] := by simp [AxesIn, axis_of_identity? hid]
        exact hv.trans (axesIn_single v)
      | none => exact .of_subset fun _ h => h

theorem axesIn_simplify (ts : List (Turn α)) : AxesIn (simplify ts) ts := by
  unfold simplify
  split
  · exact axesIn_triple _ _ _
  · exact axesIn_short _

end Sequence.Turn

/-! ## One sequence -/

namespace Sequence

variable [Scalar α] {q : Qubit} {gs out : List (Gate α)}

/-- Whether a rotation is native is a matter of its axis. -/
theorem Turn.AxesIn.supports {us ts : List (Turn α)} (h : AxesIn us ts)
    (hs : ∀ g ∈ Turn.gates q ts, p.supports g = true) : ∀ g ∈ Turn.gates q us, p.supports g = true := by
  intro g hg
  obtain ⟨u, hu, rfl⟩ := List.mem_map.1 hg
  obtain ⟨t, ht, haxis⟩ := h u hu
  have hnative : p.supports (.rotation t.axis q t.angle : Gate α) = true := hs _ (List.mem_map.2 ⟨t, ht, rfl⟩)
  rw [haxis] at hnative
  exact hnative

/-- Native gates are simplified to native gates. -/
theorem supports_peephole (hs : ∀ g ∈ gs, p.supports g = true) : ∀ g ∈ peephole gs, p.supports g = true := by
  rcases peephole_cases gs with h | ⟨r, ts, rfl, -, h⟩
  · rw [h]
    exact hs
  · rw [h]
    exact (Turn.axesIn_simplify ts).supports hs

theorem length_choose_le (hs : ∀ g ∈ gs, p.supports g = true) (h : choose p q gs = .ok out) :
    out.length ≤ gs.length := by
  have hle := length_peephole_le gs
  rcases choose_cases h with ⟨rfl, -⟩ | ⟨-, hshort⟩
  · exact hle
  · have hnative : p.supportsAll (peephole gs) = true := List.all_eq_true.2 (supports_peephole hs)
    have := hshort hnative
    omega

theorem length_optimize_le_length (hs : ∀ g ∈ gs, p.supports g = true) (h : optimize p gs = .ok out) :
    out.length ≤ gs.length := by
  rcases optimize_cases h with ⟨-, rfl⟩ | ⟨q, -, ⟨hlong, hmade⟩ | ⟨-, hchosen⟩⟩
  · simp
  · have := (synthesize_shape hmade).2
    unfold window at hlong
    omega
  · exact length_choose_le hs hchosen

/-- Gates come out of a sequence only if some go in, and then on the qubit of these. -/
theorem rotation_of_mem_optimize (h : optimize p gs = .ok out) :
    ∀ g ∈ out, ∃ a q θ, g = .rotation a q θ ∧ p.supports g = true ∧ gs ≠ [] ∧ ∀ g' ∈ gs, g'.qubit? = some q := by
  intro g hg
  rcases optimize_cases h with ⟨-, rfl⟩ | ⟨q, ⟨hne, hgs⟩, -⟩
  · cases hg
  · have hq : ∀ g' ∈ gs, g'.qubit? = some q := fun g' hg' => (hgs g' hg').1
    have hout := rotationsOn_optimize h hq
    obtain ⟨a, θ, rfl, -⟩ := hout g hg
    exact ⟨a, q, θ, rfl, hout.supports _ hg, hne, hq⟩

end Sequence

/-! ## Circuits -/

variable [Scalar α]

namespace Run

/-- Native gates wait, and no more gates are there than were taken in. -/
structure NoLonger (p : Profile) (gs : List (Gate α)) (s : Progress α) : Prop where
  native : ∀ g ∈ s.waiting, p.supports g = true
  length : s.done.length + s.waiting.length ≤ gs.length

theorem NoLonger.flush {gs : List (Gate α)} {s t : Progress α} {q : Qubit} (hs : NoLonger p gs s)
    (h : flush p s q = .ok t) : NoLonger p gs t := by
  obtain ⟨out, hout, rfl⟩ := flush_eq_ok_iff.1 h
  refine ⟨fun g hg => hs.native g (List.mem_filter.1 hg).1, ?_⟩
  have hrun : ∀ g ∈ s.waiting.filter (isOn q), p.supports g = true := fun g hg => hs.native g (List.mem_filter.1 hg).1
  have hshort := Sequence.length_optimize_le_length hrun hout
  have hsplit := List.length_eq_length_filter_add (l := s.waiting) (isOn q)
  have hlength := hs.length
  simp only [List.length_append]
  omega

theorem NoLonger.step {gs : List (Gate α)} {s t : Progress α} {g : Gate α} (hs : NoLonger p gs s)
    (hg : p.supports g = true) (h : step p s g = .ok t) : NoLonger p (gs ++ [g]) t := by
  rcases step_cases h with ⟨control, target, r₁, r₂, rfl, h₁, h₂, rfl⟩ | ⟨-, rfl⟩
  · have hr := (hs.flush h₁).flush h₂
    refine ⟨hr.native, ?_⟩
    have hlength := hr.length
    simp only [List.length_append, List.length_singleton]
    omega
  · refine ⟨fun g' hg' => ?_, ?_⟩
    · rcases List.mem_append.1 hg' with hg' | hg'
      · exact hs.native g' hg'
      · rw [List.mem_singleton.1 hg']
        exact hg
    · have hlength := hs.length
      simp only [List.length_append, List.length_singleton]
      omega

theorem length_optimizeGates_le {gates out : List (Gate α)} (hs : ∀ g ∈ gates, p.supports g = true)
    (h : optimizeGates p gates = .ok out) : out.length ≤ gates.length := by
  -- The invariant is about native gates only, so it is carried along as an implication.
  obtain ⟨s, hone, hloop, hfinish⟩ := optimizeGates_eq_ok
    (Q := fun gs s => (∀ g ∈ gs, p.supports g = true) → NoLonger p gs s) (fun _ => ⟨by simp, by simp⟩)
    (fun gs s g t _ hQ hstep hall => by
      rw [List.forall_mem_append, List.forall_mem_singleton] at hall
      exact (hQ hall.1).step hall.2 hstep) h
  have hend := finish_eq_ok hone hfinish (fun _ _ _ hu hv => NoLonger.flush hu hv) (hloop hs)
  simpa using hend.length

end Run

/-- **Optimizing never lengthens.** An optimized sequence consists of at most three native rotations of the qubit of its
gates, and it is no longer than the sequence if that was native; so optimizing again never lengthens. Neither does optimizing
a circuit of native gates. -/
theorem optimize_never_lengthens (p : Profile) :
    (∀ gs out : List (Gate α), Sequence.optimize p gs = .ok out →
      (∀ g ∈ out, ∃ a q θ, g = .rotation a q θ ∧ p.supports g = true ∧ gs ≠ [] ∧ ∀ g' ∈ gs, g'.qubit? = some q) ∧
        out.length ≤ 3 ∧ ((∀ g ∈ gs, p.supports g = true) → out.length ≤ gs.length) ∧
        ∀ again, Sequence.optimize p out = .ok again → again.length ≤ out.length) ∧
      ∀ c d : Circuit α, Run.optimizeCircuit p c = .ok d → (∀ g ∈ c.gates, p.supports g = true) →
        d.gates.length ≤ c.gates.length := by
  refine ⟨fun gs out h => ?_, fun c d h hs => ?_⟩
  · have hout := Sequence.rotation_of_mem_optimize h
    refine ⟨hout, Sequence.length_optimize_le h, fun hs => Sequence.length_optimize_le_length hs h,
      fun again hagain => ?_⟩
    have hnative : ∀ g ∈ out, p.supports g = true := by
      intro g hg
      obtain ⟨a, q, θ, -, hs, -⟩ := hout g hg
      exact hs
    exact Sequence.length_optimize_le_length hnative hagain
  · rw [Run.optimizeCircuit_eq_output, Pass.output_eq_ok_iff] at h
    obtain ⟨-, gs, hgs, hd⟩ := h
    obtain ⟨-, -, rfl⟩ := Circuit.ofGates_eq_ok_iff.1 hd
    exact Run.length_optimizeGates_le hs hgs

/-- Two half turns after a rotation about another axis. -/
def fullTurn : List (Gate Float) := [.rotation .z ⟨1⟩ 60.0, .rotation .x ⟨1⟩ 180.0, .rotation .x ⟨1⟩ 180.0]

/-- A rotation and its inverse. -/
def turnedBack : List (Gate Float) := [.rotation .z ⟨1⟩ 30.0, .rotation .z ⟨1⟩ (-30.0)]

/-- Three runs, each of which gets shorter. -/
def wasteful : Circuit Float where
  width := 2
  gates := .rotation .x ⟨0⟩ 90.0 :: .rotation .x ⟨0⟩ 45.0 :: turnedBack ++ .cx ⟨0⟩ ⟨1⟩ :: fullTurn

def wastefulOptimized : Circuit Float where
  width := 2
  gates := [.rotation .x ⟨0⟩ 135.0, .cx ⟨0⟩ ⟨1⟩, .rotation .z ⟨1⟩ 60.0]

theorem optimize_never_lengthens_wasteful :
    (Sequence.optimize (.pair .xz) fullTurn = .ok [.rotation .z ⟨1⟩ 60.0] ∧
        (∀ g ∈ fullTurn, (Profile.pair .xz).supports g = true) ∧ 1 ≤ fullTurn.length) ∧
      (Sequence.optimize (.pair .xz) turnedBack = .ok [] ∧
        Sequence.optimize (.pair .xz) ([] : List (Gate Float)) = .ok [] ∧ ([] : List (Gate Float)).length ≤ 0) ∧
      Run.optimizeCircuit (.pair .xz) wasteful = .ok wastefulOptimized ∧
      (∀ g ∈ wasteful.gates, (Profile.pair .xz).supports g = true) ∧
      wastefulOptimized.gates.length ≤ wasteful.gates.length := by
  have hturn : Sequence.optimize (.pair .xz) fullTurn = .ok [.rotation .z ⟨1⟩ 60.0] := by decide +kernel
  have hback : Sequence.optimize (.pair .xz) turnedBack = .ok [] := by decide +kernel
  have hcircuit : Run.optimizeCircuit (.pair .xz) wasteful = .ok wastefulOptimized := by decide +kernel
  have hnative : ∀ g ∈ fullTurn, (Profile.pair .xz).supports g = true := by decide
  have hall : ∀ g ∈ wasteful.gates, (Profile.pair .xz).supports g = true := by decide
  obtain ⟨hseq, hcirc⟩ := optimize_never_lengthens (α := Float) (.pair .xz)
  exact ⟨⟨hturn, hnative, (hseq _ _ hturn).2.2.1 hnative⟩, ⟨hback, rfl, (hseq _ _ hback).2.2.2 _ rfl⟩, hcircuit, hall,
    hcirc _ _ hcircuit hall⟩

end RotationCircuits
