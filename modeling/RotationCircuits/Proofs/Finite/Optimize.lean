import RotationCircuits.Proofs.Finite.Synthesis
import RotationCircuits.Proofs.Length
import RotationCircuits.Proofs.Pipeline.Failure
import RotationCircuits.Proofs.Run.Exactness
import RotationCircuits.Proofs.Sequence.Settled

/-!
# Validity of optimized gates

Where the simplifier merges rotations it adds their angles (`Turn.sums`). A sum that overflows is never a whole number of
turns, so it stays, and as the simplified gates are fewer than before they are chosen if the target runs them. Nothing else
makes an angle infinite: so an optimized sequence is valid exactly if no sum overflows (`optimized_gates_valid_iff`).
-/

namespace RotationCircuits

open Binary64
open Hardware (Profile)

namespace Sequence

namespace Turn

section Windows

variable {α : Type} [Scalar α]

/-- The angle that merging two rotations gives. -/
def pairSums (s t : Turn α) : List α := if s.axis = t.axis then [s.angle + t.angle] else []

/-- The sums of angles that the simplifier forms. Of three rotations the first two are merged first; what they give meets
the third unless it is dropped. -/
def sums : List (Turn α) → List α
  | [s, t] => pairSums s t
  | [s, t, u] =>
    if s.axis = t.axis then
      let sum := s.angle + t.angle
      sum :: if Angle.isZero sum then [] else pairSums ⟨s.axis, sum⟩ u
    else pairSums t u
  | _ => []

/-- The simplifier looks at short windows only. -/
theorem length_le_window {ts : List (Turn α)} (h : sums ts ≠ []) : ts.length ≤ window := by
  match ts with
  | [] => exact absurd rfl h
  | [t] => exact absurd rfl h
  | [s, t] => exact Nat.le_succ 2
  | [s, t, u] => exact Nat.le_refl 3
  | s :: t :: u :: v :: ts => exact absurd rfl h

/-- Settled rotations are not merged. -/
theorem sums_of_settled {ts : List (Turn α)} (h : Settled ts) : sums ts = [] := by
  match ts with
  | [] => rfl
  | [t] => rfl
  | [s, t] => exact if_neg (settled_pair_iff.1 h)
  | [s, t, u] =>
    obtain ⟨hst, htu, -⟩ := settled_triple_iff.1 h
    simp [sums, pairSums, hst, htu]
  | s :: t :: u :: v :: ts => rfl

/-- Merging leaves fewer rotations. -/
theorem length_simplify_lt {ts : List (Turn α)} (h : sums ts ≠ []) : (simplify ts).length < ts.length := by
  rcases simplify_eq_or_length_lt ts with hsame | hlt
  · have hsettled := settled_simplify (length_le_window h)
    rw [hsame] at hsettled
    exact absurd (sums_of_settled hsettled) h
  · exact hlt

end Windows

variable {T : Trigonometry} {s t u : Turn T.Double} {ts : List (Turn T.Double)}

/-- All angles are finite. -/
def Finite (ts : List (Turn T.Double)) : Prop := ∀ t ∈ ts, Scalar.isFinite t.angle = true

theorem finite_cons_iff : Finite (t :: ts) ↔ Scalar.isFinite t.angle = true ∧ Finite ts := List.forall_mem_cons

theorem finite_nil : Finite ([] : List (Turn T.Double)) := List.forall_mem_nil _

/-- A rotation by an angle that is not finite is not dropped. -/
theorem single_of_not_isFinite (h : Scalar.isFinite t.angle = false) : single t = [t] := by
  have hzero : Angle.isZero t.angle = false := Angle.isZero_of_not_isFinite h
  simp [single, hzero]

theorem finite_single (ht : Scalar.isFinite t.angle = true) : Finite (single t) := by
  unfold single
  split
  · exact finite_nil
  · exact finite_cons_iff.2 ⟨ht, finite_nil⟩

theorem finite_pair (hs : Scalar.isFinite s.angle = true) (ht : Scalar.isFinite t.angle = true)
    (hsum : ∀ x ∈ pairSums s t, Scalar.isFinite x = true) : Finite (pair s t) := by
  by_cases haxis : s.axis = t.axis
  · rw [pairSums, if_pos haxis, List.forall_mem_singleton] at hsum
    rw [pair_of_axis_eq haxis]
    exact finite_single hsum
  · rw [pair_of_axis_ne haxis]
    exact finite_cons_iff.2 ⟨hs, finite_cons_iff.2 ⟨ht, finite_nil⟩⟩

theorem finite_triple (hts : Finite [s, t, u]) (hsum : ∀ x ∈ sums [s, t, u], Scalar.isFinite x = true) :
    Finite (triple s t u) := by
  have hall := hts
  simp only [finite_cons_iff] at hts
  obtain ⟨hs, ht, hu, -⟩ := hts
  by_cases hst : s.axis = t.axis
  · simp only [sums, if_pos hst, List.forall_mem_cons] at hsum
    rw [triple_front hst]
    split
    · exact finite_single hu
    · rename_i hzero
      rw [if_neg hzero] at hsum
      exact finite_pair hsum.1 hu hsum.2
  · simp only [sums, if_neg hst] at hsum
    by_cases htu : t.axis = u.axis
    · rw [pairSums, if_pos htu, List.forall_mem_singleton] at hsum
      rw [triple_back hst htu]
      split
      · exact finite_single hs
      · exact finite_cons_iff.2 ⟨hs, finite_cons_iff.2 ⟨hsum, finite_nil⟩⟩
    · rcases triple_apart hst htu with ⟨h, -⟩ | ⟨-, h | h⟩ <;> rw [h]
      · exact hall
      · exact finite_single ((isFinite_neg t.angle).trans ht)
      · exact finite_single ht

/-- If no sum overflows, simplified rotations have finite angles. -/
theorem finite_simplify (hts : Finite ts) (hsum : ∀ x ∈ sums ts, Scalar.isFinite x = true) : Finite (simplify ts) := by
  match ts with
  | [] => exact hts
  | [t] => exact finite_single (finite_cons_iff.1 hts).1
  | [s, t] =>
    simp only [finite_cons_iff] at hts
    exact finite_pair hts.1 hts.2.1 hsum
  | [s, t, u] => exact finite_triple hts hsum
  | s :: t :: u :: v :: ts => exact hts

/-- What is left of rotations after an overflow: all axes, and an angle that is not finite. -/
structure Spoiled (ts out : List (Turn T.Double)) : Prop where
  infinite : ∃ t ∈ out, Scalar.isFinite t.angle = false
  axesIn : AxesIn ts out

theorem Spoiled.of_axesIn {us out : List (Turn T.Double)} (h : Spoiled us out) (haxes : AxesIn ts us) : Spoiled ts out :=
  ⟨h.infinite, h.axesIn.trans haxes⟩

theorem spoiled_merged (haxis : s.axis = t.axis) (hsum : Scalar.isFinite (s.angle + t.angle) = false) :
    Spoiled [s, t] (pair s t) := by
  have hsingle : single ⟨s.axis, s.angle + t.angle⟩ = [⟨s.axis, s.angle + t.angle⟩] := single_of_not_isFinite hsum
  rw [pair_of_axis_eq haxis, hsingle]
  refine ⟨⟨⟨s.axis, s.angle + t.angle⟩, List.mem_singleton_self _, hsum⟩, ?_⟩
  simp [AxesIn, haxis]

theorem spoiled_pair {x : T.Double} (hx : Scalar.isFinite x = false) (hmem : x ∈ pairSums s t) :
    Spoiled [s, t] (pair s t) := by
  unfold pairSums at hmem
  split at hmem
  · rename_i haxis
    rw [List.mem_singleton] at hmem
    subst hmem
    exact spoiled_merged haxis hx
  · cases hmem

/-- Merging does not repair an angle that is not finite. -/
theorem spoiled_pair_of_left (hs : Scalar.isFinite s.angle = false) : Spoiled [s, t] (pair s t) := by
  by_cases haxis : s.axis = t.axis
  · refine spoiled_merged haxis (Bool.eq_false_iff.2 fun hsum => ?_)
    exact absurd (isFinite_of_add hsum).1 (Bool.eq_false_iff.1 hs)
  · rw [pair_of_axis_ne haxis]
    exact ⟨⟨s, List.mem_cons_self, hs⟩, .of_subset fun _ h => h⟩

theorem spoiled_triple {x : T.Double} (hx : Scalar.isFinite x = false) (hmem : x ∈ sums [s, t, u]) :
    Spoiled [s, t, u] (triple s t u) := by
  by_cases hst : s.axis = t.axis
  · have haxes : AxesIn [s, t, u] [⟨s.axis, s.angle + t.angle⟩, u] := by simp [AxesIn, hst]
    simp only [sums, if_pos hst, List.mem_cons] at hmem
    rw [triple_front hst]
    rcases hmem with rfl | hmem
    · have hzero : Angle.isZero (s.angle + t.angle) = false := Angle.isZero_of_not_isFinite hx
      have hpair : Spoiled [⟨s.axis, s.angle + t.angle⟩, u] (pair ⟨s.axis, s.angle + t.angle⟩ u) := spoiled_pair_of_left hx
      rw [hzero]
      exact hpair.of_axesIn haxes
    · split at hmem
      · cases hmem
      · rename_i hzero
        rw [if_neg hzero]
        exact (spoiled_pair hx hmem).of_axesIn haxes
  · simp only [sums, if_neg hst, pairSums] at hmem
    split at hmem
    · rename_i htu
      rw [List.mem_singleton] at hmem
      subst hmem
      have hzero : Angle.isZero (t.angle + u.angle) = false := Angle.isZero_of_not_isFinite hx
      rw [triple_back hst htu, hzero]
      refine ⟨⟨⟨t.axis, t.angle + u.angle⟩, by simp, hx⟩, ?_⟩
      simp [AxesIn, htu]
    · cases hmem

/-- A sum that overflows stays. -/
theorem spoiled_simplify {x : T.Double} (hx : Scalar.isFinite x = false) (hmem : x ∈ sums ts) :
    Spoiled ts (simplify ts) := by
  match ts with
  | [] => cases hmem
  | [t] => cases hmem
  | [s, t] => exact spoiled_pair hx hmem
  | [s, t, u] => exact spoiled_triple hx hmem
  | s :: t :: u :: v :: ts => cases hmem

end Turn

/-! ## One sequence -/

section Overflow

variable {α : Type} [Scalar α] {p : Profile} {gs : List (Gate α)}

/-- The target runs these gates, and the simplifier adds up their angles to something that is not finite. -/
def overflows (p : Profile) (gs : List (Gate α)) : Bool :=
  p.supportsAll gs && (Turn.sums (turns gs)).any fun x => !Scalar.isFinite x

theorem overflows_eq_true_iff :
    overflows p gs = true ↔
      (∀ g ∈ gs, p.supports g = true) ∧ ∃ x ∈ Turn.sums (turns gs), Scalar.isFinite x = false := by
  simp [overflows, Profile.supportsAll]

end Overflow

variable {T : Trigonometry} {p : Profile} {gs out : List (Gate T.Double)}

theorem validate_gates_iff {q : Qubit} {ts : List (Turn T.Double)} :
    (∀ g ∈ Turn.gates q ts, g.validate = .ok ()) ↔ Turn.Finite ts := by
  simp only [Turn.gates, List.forall_mem_map, Turn.Finite]
  exact forall₂_congr fun t _ => Gate.validate_rotation_iff

/-- A sequence that overflows is simplified, to gates one of which is not valid. -/
theorem not_validate_of_overflows (h : optimize p gs = .ok out) (hover : overflows p gs = true) :
    ∃ g ∈ out, g.validate ≠ .ok () := by
  obtain ⟨hnative, x, hmem, hx⟩ := overflows_eq_true_iff.1 hover
  rcases optimize_cases h with ⟨rfl, -⟩ | ⟨q, ⟨-, hgs⟩, hmade⟩
  · cases hmem
  have hturns := gates_turns (.of_supports hnative fun g hg => (hgs g hg).1)
  have hsums := List.ne_nil_of_mem hmem
  generalize turns gs = ts at hmem hturns hsums
  subst hturns
  have hwindow := Turn.length_le_window hsums
  have hshorter := Turn.length_simplify_lt hsums
  have hall : p.supportsAll (peephole (Turn.gates q ts)) = true := List.all_eq_true.2 (supports_peephole hnative)
  have hlength (us : List (Turn T.Double)) : (Turn.gates q us).length = us.length := List.length_map _
  rcases hmade with ⟨hlong, -⟩ | ⟨-, hchosen⟩
  · rw [hlength] at hlong
    omega
  rcases choose_cases hchosen with ⟨rfl, -⟩ | ⟨-, hsynthesized⟩
  · rw [peephole_gates]
    obtain ⟨t, ht, hinfinite⟩ := (Turn.spoiled_simplify hx hmem).infinite
    by_contra hvalid
    push Not at hvalid
    have hfinite := validate_gates_iff.1 hvalid t ht
    rw [hinfinite] at hfinite
    cases hfinite
  · have hle := (hsynthesized hall).2
    rw [peephole_gates, hlength, hlength] at hle
    omega

/-- **Optimized gates are valid** where nothing overflows. -/
theorem validate_optimize (hT : T.Sound) (hgs : Stable gs) (h : optimize p gs = .ok out)
    (hover : overflows p gs = false) : ∀ g ∈ out, g.validate = .ok () := by
  rcases optimize_cases h with ⟨-, rfl⟩ | ⟨q, ⟨-, hfits⟩, hmade⟩
  · exact List.forall_mem_nil _
  have hvalid : ∀ g ∈ gs, g.validate = .ok () := fun g hg => (hfits g hg).2.1
  rcases hmade with ⟨-, hsynthesized⟩ | ⟨-, hchosen⟩
  · exact validate_synthesize hT hgs hvalid hsynthesized
  rcases choose_cases hchosen with ⟨rfl, hall⟩ | ⟨hsynthesized, -⟩
  · rcases peephole_cases gs with hsame | ⟨r, ts, rfl, -, hsimplified⟩
    · rw [hsame]
      exact hvalid
    · rw [hsimplified, validate_gates_iff]
      refine Turn.finite_simplify (validate_gates_iff.1 hvalid) fun x hmem => ?_
      -- After an overflow all axes are still there, so the target runs the gates before as well.
      by_contra hx
      rw [Bool.not_eq_true] at hx
      have hnative := (Turn.spoiled_simplify hx hmem).axesIn.supports (List.all_eq_true.1 (hsimplified ▸ hall))
      have hoverflows : overflows p (Turn.gates r ts) = true := by
        rw [overflows_eq_true_iff, turns_gates]
        exact ⟨hnative, x, hmem, hx⟩
      rw [hover] at hoverflows
      cases hoverflows
  · exact validate_synthesize hT hgs hvalid hsynthesized

end Sequence

/-! ## Circuits -/

namespace Run

variable {α : Type} [Scalar α] {p : Profile} {c : Circuit α} {out : List (Gate α)}

/-- Optimized gates stay on the qubits of the circuit, and only their angles can be wrong. -/
theorem optimizeGates_of_wellFormed (hc : c.WellFormed) (h : optimizeGates p c.gates = .ok out) {g : Gate α}
    (hg : g ∈ out) :
    (∀ q ∈ g.qubits, q.index.toNat < c.width) ∧
      ∀ e, g.validate = .error e → ∃ name angle, e = .nonFiniteAngle name angle := by
  rcases (mem_optimizeGates_iff h).1 hg with ⟨-, hmem⟩ | ⟨q, run, hrun, made, hmade, hmem⟩
  · obtain ⟨hvalid, hqubits⟩ := hc.2 g hmem
    refine ⟨hqubits, fun e he => ?_⟩
    rw [hvalid] at he
    cases he
  · obtain ⟨a, r, θ, rfl, -, hne, hqubit⟩ := Sequence.rotation_of_mem_optimize hmade g hmem
    obtain ⟨g', hg'⟩ := List.exists_mem_of_ne_nil run hne
    have hfits := hc.2 g' ((exists_mem_runs_iff (isOn_of_mem_run hrun hg')).1 ⟨run, hrun, hg'⟩)
    refine ⟨?_, fun e he => ?_⟩
    · have hq := hfits.2
      rw [Gate.qubits_of_qubit? (hqubit g' hg')] at hq
      exact hq
    · unfold Gate.validate at he
      dsimp only at he
      split at he <;> cases he
      exact ⟨_, _, rfl⟩

theorem optimizeCircuit_eq_bind (hw : c.width ≤ p.width) :
    optimizeCircuit p c = optimizeGates p c.gates >>= c.rebuild := by
  have hwidth : p.checkWidth (α := α) c.width = .ok () := Profile.checkWidth_eq_ok_iff.2 hw
  rw [optimizeCircuit_eq_output, Pass.output, hwidth]
  rfl

/-- Runs of valid gates are not refused for an angle. -/
theorem optimize_ne_nonFinite {gs : List (Gate α)} (hv : ∀ g ∈ gs, g.validate = .ok ()) (name : String) (angle : α) :
    Sequence.optimize p gs ≠ .error (.circuit (.nonFiniteAngle name angle)) := by
  intro h
  rcases Sequence.optimize_error_cases h with h | ⟨q, h⟩ | h
  · cases h
  · unfold Profile.checkQubit at h
    split at h <;> cases h
  · rw [Sequence.validateAll_eq_ok_iff.2 hv] at h
    cases h

/-- A circuit is refused for an angle exactly if every run can be optimized and one gives a gate that is not valid. -/
theorem optimizeCircuit_nonFinite_iff (hc : c.WellFormed) (hw : c.width ≤ p.width) :
    (∃ name angle, optimizeCircuit p c = .error (.circuit (.nonFiniteAngle name angle))) ↔
      (∀ q, ∀ run ∈ runs q c.gates, ∃ out, Sequence.optimize p run = .ok out) ∧
        ∃ q, ∃ run ∈ runs q c.gates, ∃ out, Sequence.optimize p run = .ok out ∧ ∃ g ∈ out, g.validate ≠ .ok () := by
  rw [optimizeCircuit_eq_bind hw]
  cases hout : optimizeGates p c.gates with
  | error e =>
    obtain ⟨q, run, hrun, he⟩ := exists_run_of_optimizeGates_eq_error hout
    refine iff_of_false ?_ fun h => ?_
    · rintro ⟨name, angle, h⟩
      cases h
      refine optimize_ne_nonFinite (fun g hg => ?_) name angle he
      exact (hc.2 g ((exists_mem_runs_iff (isOn_of_mem_run hrun hg)).1 ⟨run, hrun, hg⟩)).1
    · obtain ⟨made, hmade⟩ := h.1 q run hrun
      rw [he] at hmade
      cases hmade
  | ok out =>
    have hgates {g : Gate α} (hg : g ∈ out) := optimizeGates_of_wellFormed hc hout hg
    change (∃ name angle, c.rebuild out = .error (.circuit (.nonFiniteAngle name angle))) ↔ _
    rcases Circuit.rebuild_cases hc.1 fun g hg => (hgates hg).1 with ⟨hvalid, hok⟩ | ⟨g, hg, e, he, herror⟩
    · refine iff_of_false ?_ ?_
      · rintro ⟨name, angle, h⟩
        rw [hok] at h
        cases h
      · rintro ⟨-, q, run, hrun, made, hmade, g, hg, hbad⟩
        exact hbad (hvalid g ((mem_optimizeGates_iff hout).2 (.inr ⟨q, run, hrun, made, hmade, hg⟩)))
    · obtain ⟨name, angle, rfl⟩ := (hgates hg).2 e he
      have hall : ∀ q, ∀ run ∈ runs q c.gates, ∃ made, Sequence.optimize p run = .ok made := by
        intro q run hrun
        obtain ⟨made, -, hmade⟩ := (optimized_runs hout q).exists_out hrun
        exact ⟨made, hmade⟩
      refine iff_of_true ⟨name, angle, herror⟩ ⟨hall, ?_⟩
      -- The gate that is refused is no CX gate, because those come from the circuit.
      rcases (mem_optimizeGates_iff hout).1 hg with ⟨-, hmem⟩ | ⟨q, run, hrun, made, hmade, hmem⟩
      · rw [(hc.2 g hmem).1] at he
        cases he
      · exact ⟨q, run, hrun, made, hmade, g, hmem, by simp [he]⟩

end Run

/-- **Optimized gates are valid unless merged angles overflow.** On a machine with sound trigonometry a stable sequence is
optimized to valid gates exactly if no sum of angles that the simplifier forms overflows. So a circuit is refused for an
angle exactly if all its runs can be optimized and one of them overflows, by the pass as well, which then leaves it as it
was. -/
theorem optimized_gates_valid_iff (T : Trigonometry) (hT : T.Sound) (p : Profile) :
    (∀ gs out : List (Gate T.Double), Sequence.Stable gs → Sequence.optimize p gs = .ok out →
      ((∀ g ∈ out, g.validate = .ok ()) ↔ Sequence.overflows p gs = false)) ∧
      ∀ c : Circuit T.Double, c.WellFormed → c.width ≤ p.width →
        (∀ q, ∀ run ∈ Run.runs q c.gates, Sequence.Stable run) →
          ((∃ name angle, Run.optimizeCircuit p c = .error (.circuit (.nonFiniteAngle name angle))) ↔
            (∀ q, ∀ run ∈ Run.runs q c.gates, ∃ out, Sequence.optimize p run = .ok out) ∧
              ∃ q, ∃ run ∈ Run.runs q c.gates, Sequence.overflows p run = true) ∧
          ∀ e, (Pass.runOptimization.run p).apply c = (.error e, c) ↔ Run.optimizeCircuit p c = .error e := by
  have hsequence (gs out : List (Gate T.Double)) (hgs : Sequence.Stable gs) (h : Sequence.optimize p gs = .ok out) :
      (∀ g ∈ out, g.validate = .ok ()) ↔ Sequence.overflows p gs = false := by
    refine ⟨fun hvalid => ?_, fun hover => Sequence.validate_optimize hT hgs h hover⟩
    by_contra hover
    obtain ⟨g, hg, hbad⟩ := Sequence.not_validate_of_overflows h (Bool.not_eq_false _ ▸ hover)
    exact hbad (hvalid g hg)
  refine ⟨hsequence, fun c hc hw hruns => ⟨?_, fun e => ?_⟩⟩
  · rw [Run.optimizeCircuit_nonFinite_iff hc hw]
    refine and_congr_right fun hall => exists_congr fun q => exists_congr fun run => and_congr_right fun hrun => ?_
    obtain ⟨out, hout⟩ := hall q run hrun
    have hiff := hsequence run out (hruns q run hrun) hout
    rw [← Bool.not_eq_false, ← hiff]
    push Not
    simp [hout]
  · rw [Run.optimizeCircuit_eq_output, Pass.apply_run_eq_error_iff]
    simp

/-- Rotations that are too large to be merged. -/
def overWound : List (Gate Trigonometry.flat.Double) := [.rotation .x ⟨0⟩ 1e308, .rotation .x ⟨0⟩ 1e308]

def overWoundMerged : List (Gate Trigonometry.flat.Double) := [.rotation .x ⟨0⟩ infinity]

/-- Rotations that can be merged. -/
def twiceWound : List (Gate Trigonometry.flat.Double) := [.rotation .z ⟨1⟩ 30.0, .rotation .z ⟨1⟩ 40.0]

def twiceWoundMerged : List (Gate Trigonometry.flat.Double) := [.rotation .z ⟨1⟩ 70.0]

/-- A run that overflows before a CX, and one that does not after it. Both are merged, so that no sine or cosine is taken and
the machine does not matter. -/
def overWoundPair : Circuit Trigonometry.flat.Double where
  width := 2
  gates := overWound ++ .cx ⟨0⟩ ⟨1⟩ :: twiceWound

theorem runs_overWoundPair (q : Qubit) :
    Run.runs q overWoundPair.gates =
      if q = ⟨0⟩ then [overWound, []] else if q = ⟨1⟩ then [[], twiceWound] else [[]] := by
  by_cases h0 : q = ⟨0⟩
  · subst h0
    decide +kernel
  · by_cases h1 : q = ⟨1⟩
    · subst h1
      decide +kernel
    · have h0' : ¬ (⟨0⟩ : Qubit) = q := fun h => h0 h.symm
      have h1' : ¬ (⟨1⟩ : Qubit) = q := fun h => h1 h.symm
      simp [Run.runs, overWoundPair, overWound, twiceWound, List.splitOnP_cons_eq_if_modifyHead, Run.endsRun, Run.isOn,
        Gate.qubit?, h0, h1, h0', h1']

theorem optimized_gates_valid_iff_overWound :
    Trigonometry.flat.Sound ∧
      (Sequence.Stable overWound ∧ Sequence.optimize (.pair .xyz) overWound = .ok overWoundMerged ∧
        ((∀ g ∈ overWoundMerged, g.validate = .ok ()) ↔ Sequence.overflows (.pair .xyz) overWound = false)) ∧
      overWoundPair.WellFormed ∧ (∀ q, ∀ run ∈ Run.runs q overWoundPair.gates, Sequence.Stable run) ∧
      ∃ name angle, Run.optimizeCircuit (.pair .xyz) overWoundPair = .error (.circuit (.nonFiniteAngle name angle)) := by
  have hstable {gs : List (Gate Trigonometry.flat.Double)} (h : gs.length ≤ 3) : Sequence.Stable gs :=
    .inl ⟨(List.countP_le_length).trans (by omega), by omega⟩
  have hmerged : Sequence.optimize (.pair .xyz) overWound = .ok overWoundMerged := by decide +kernel
  have htwice : Sequence.optimize (.pair .xyz) twiceWound = .ok twiceWoundMerged := by decide +kernel
  have hcircuit : overWoundPair.WellFormed := by
    unfold Circuit.WellFormed
    decide +kernel
  have hruns (q : Qubit) : ∀ run ∈ Run.runs q overWoundPair.gates, run.length ≤ 3 ∧
      ∃ out, Sequence.optimize (.pair .xyz) run = .ok out := by
    have hnil : Sequence.optimize (.pair .xyz) ([] : List (Gate Trigonometry.flat.Double)) = .ok [] := rfl
    rw [runs_overWoundPair]
    split
    · simp only [List.forall_mem_cons]
      exact ⟨⟨by decide, _, hmerged⟩, ⟨by decide, _, hnil⟩, by simp⟩
    · split
      · simp only [List.forall_mem_cons]
        exact ⟨⟨by decide, _, hnil⟩, ⟨by decide, _, htwice⟩, by simp⟩
      · simp only [List.forall_mem_cons]
        exact ⟨⟨by decide, _, hnil⟩, by simp⟩
  obtain ⟨hsequence, hpass⟩ := optimized_gates_valid_iff Trigonometry.flat Trigonometry.sound_flat (.pair .xyz)
  have hstables : ∀ q, ∀ run ∈ Run.runs q overWoundPair.gates, Sequence.Stable run :=
    fun q run hrun => hstable (hruns q run hrun).1
  refine ⟨Trigonometry.sound_flat, ⟨hstable (by decide), hmerged, hsequence _ _ (hstable (by decide)) hmerged⟩, hcircuit,
    hstables, ?_⟩
  refine (hpass overWoundPair hcircuit (by decide) hstables).1.2
    ⟨fun q run hrun => (hruns q run hrun).2, ⟨0⟩, overWound, ?_, by decide +kernel⟩
  rw [runs_overWoundPair]
  simp

/-- Rotations that are too large to be merged, in a circuit of doubles. -/
def tightlyWound : Circuit Float where
  width := 1
  gates := [.rotation .x ⟨0⟩ 1e308, .rotation .x ⟨0⟩ 1e308]

/-- Two valid rotations that are optimized to one by an infinite angle, so that their circuit cannot be optimized. -/
theorem merged_angles_overflow :
    (∀ g ∈ tightlyWound.gates, (g : Gate Float).validate = .ok ()) ∧
      Sequence.optimize (.pair .xyz) tightlyWound.gates = .ok [.rotation .x ⟨0⟩ infinity] ∧
      (Gate.rotation .x ⟨0⟩ infinity : Gate Float).validate = .error (.nonFiniteAngle "X" infinity) ∧
      tightlyWound.WellFormed ∧
      Run.optimizeCircuit (.pair .xyz) tightlyWound = .error (.circuit (.nonFiniteAngle "X" infinity)) ∧
      (Pass.runOptimization.run (.pair .xyz)).apply tightlyWound =
        (.error (.circuit (.nonFiniteAngle "X" infinity)), tightlyWound) := by
  unfold Circuit.WellFormed
  decide +kernel

end RotationCircuits
