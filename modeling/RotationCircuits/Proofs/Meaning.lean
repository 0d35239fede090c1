import Mathlib.Algebra.BigOperators.Group.List.Basic
import Mathlib.Algebra.FreeMonoid.Basic
import Mathlib.Algebra.Group.End
import RotationCircuits.Binary64
import RotationCircuits.Proofs.Native
import RotationCircuits.Proofs.Run.Loop

/-!
# Compilation keeps the meaning of a circuit

A meaning sends gates to the elements of a monoid such that gates without a common qubit commute; gate lists are read as
products in the order of application. If the native equivalents of single gates and the optimized forms of one-qubit runs
keep a meaning, then every pipeline keeps it, and so does the optimizer of whole circuits
(`compilation_preserves_meaning`).

The loop over runs delays a rotation past gates of the other qubit and puts it out at the next CX of its own. What carries
the proof is that the gates put out so far, followed by those that wait, always mean what the gates taken in mean.

Two meanings are kept: the order of CX gates on every machine (`cxOrder_soundFor`), and the histories of qubits, which say
between which CX gates a qubit is turned, on machines that leave out no rotation (`history_soundFor`).
-/

namespace RotationCircuits

open Hardware (Profile)

variable {α : Type} {M : Type*} [Monoid M]

/-- An interpretation of gates in which gates that share no qubit commute. -/
structure Meaning (α : Type) (M : Type*) [Monoid M] where
  gate : Gate α → M
  commute : ∀ g h : Gate α, g.qubits.Disjoint h.qubits → Commute (gate g) (gate h)

namespace Meaning

variable (m : Meaning α M)

/-- The meaning of gates that are applied one after the other. -/
def list (gs : List (Gate α)) : M := (gs.map m.gate).prod

@[simp] theorem list_nil : m.list [] = 1 := rfl

@[simp] theorem list_cons (g : Gate α) (gs : List (Gate α)) : m.list (g :: gs) = m.gate g * m.list gs := by
  simp [list]

@[simp] theorem list_append (gs hs : List (Gate α)) : m.list (gs ++ hs) = m.list gs * m.list hs := by
  simp [list]

/-- A gate commutes with gates on other qubits. -/
theorem commute_list {g : Gate α} {gs : List (Gate α)} (h : ∀ g' ∈ gs, g.qubits.Disjoint g'.qubits) :
    Commute (m.gate g) (m.list gs) := by
  induction gs with
  | nil => exact Commute.one_right _
  | cons g' gs ih =>
    obtain ⟨hg', hgs⟩ := List.forall_mem_cons.1 h
    rw [list_cons]
    exact (m.commute g g' hg').mul_right (ih hgs)

/-- One-qubit gates can be sorted by whether they are on a given qubit. -/
theorem list_filter_isOn (q : Qubit) {gs : List (Gate α)} (h : ∀ g ∈ gs, ∃ r, g.qubit? = some r) :
    m.list gs = m.list (gs.filter (Run.isOn q)) * m.list (gs.filter fun g => !Run.isOn q g) := by
  induction gs with
  | nil => simp
  | cons g gs ih =>
    obtain ⟨⟨r, hr⟩, hgs⟩ := List.forall_mem_cons.1 h
    rw [list_cons, ih hgs, List.filter_cons, List.filter_cons]
    cases hg : Run.isOn q g with
    | true => simp [mul_assoc]
    | false =>
      -- `g` moves to the right, past the gates on `q`.
      have hcomm : Commute (m.gate g) (m.list (gs.filter (Run.isOn q))) := by
        apply m.commute_list
        intro g' hg'
        have hq' := Run.isOn_iff.1 (List.mem_filter.1 hg').2
        have hne : r ≠ q := Run.ne_of_isOn_eq_false hr hg
        rw [Gate.qubits_of_qubit? hr, Gate.qubits_of_qubit? hq']
        simpa using hne.symm
      simp only [Bool.not_false, if_true, Bool.false_eq_true, if_false, list_cons]
      rw [← mul_assoc, hcomm.eq, mul_assoc]

/-! ## The order of CX gates -/

/-- A CX on a supported pair as a letter; other gates count for nothing. -/
def cxLetter : Gate α → FreeMonoid (Qubit × Qubit)
  | .cx control target => if Gate.IsPair control target then .of (control, target) else 1
  | _ => 1

theorem cxLetter_cases (g : Gate α) :
    cxLetter g = 1 ∨ ∃ control target, g = .cx control target ∧ Gate.IsPair control target := by
  cases g with
  | rotation a q θ => exact .inl rfl
  | general q e => exact .inl rfl
  | cx control target =>
    by_cases h : Gate.IsPair control target
    · exact .inr ⟨control, target, rfl, h⟩
    · exact .inl (if_neg h)

/-- Any two supported pairs share their qubits. -/
theorem mem_of_isPair {c t c' t' : Qubit} (h : Gate.IsPair c t) (h' : Gate.IsPair c' t') : c ∈ [c', t'] := by
  obtain ⟨c⟩ := c
  obtain ⟨c'⟩ := c'
  obtain ⟨t'⟩ := t'
  simp only [Gate.IsPair] at h h'
  simp only [List.mem_cons, Qubit.mk.injEq]
  rcases h with ⟨rfl, -⟩ | ⟨rfl, -⟩ <;> rcases h' with ⟨rfl, rfl⟩ | ⟨rfl, rfl⟩ <;> simp

/-- The meaning that keeps the CX gates on supported pairs, in their order. All of them act on the same two qubits, so
none has to commute with another. -/
def cxOrder : Meaning α (FreeMonoid (Qubit × Qubit)) where
  gate := cxLetter
  commute g h hdisj := by
    rcases cxLetter_cases g with hg | ⟨c, t, rfl, hg⟩
    · rw [hg]
      exact Commute.one_left _
    rcases cxLetter_cases h with hh | ⟨c', t', rfl, hh⟩
    · rw [hh]
      exact Commute.one_right _
    · exact absurd (mem_of_isPair hg hh) fun hmem => hdisj (by simp [Gate.qubits]) hmem

theorem cxOrder_list (gs : List (Gate α)) : cxOrder.list gs = cxOrder.list (gs.filter Gate.isCx) := by
  induction gs with
  | nil => rfl
  | cons g gs ih =>
    rw [list_cons, ih]
    cases g with
    | cx control target => rw [List.filter_cons_of_pos rfl, list_cons]
    | rotation a q θ => simp [Gate.isCx, cxOrder, cxLetter]
    | general q e => simp [Gate.isCx, cxOrder, cxLetter]

/-! ## Histories of qubits -/

/-- What happens to a qubit: it is turned, by any number of rotations, or it takes part in a CX. -/
inductive Event where
  | turned
  | cx (control target : Qubit)
deriving DecidableEq, Repr

/-- The history of every qubit. -/
abbrev Histories := Qubit → List Event

/-- Changes the histories of some qubits. -/
def onQubits (qs : List Qubit) (f : List Event → List Event) : Function.End Histories :=
  fun events q => if q ∈ qs then f (events q) else events q

theorem onQubits_mul (qs : List Qubit) (f g : List Event → List Event) :
    onQubits qs f * onQubits qs g = onQubits qs (f ∘ g) := by
  funext events q
  change (if q ∈ qs then f (onQubits qs g events q) else onQubits qs g events q) = onQubits qs (f ∘ g) events q
  by_cases hq : q ∈ qs <;> simp [onQubits, hq]

theorem commute_onQubits {qs rs : List Qubit} (h : qs.Disjoint rs) (f g : List Event → List Event) :
    Commute (onQubits qs f) (onQubits rs g) := by
  funext events q
  change (if q ∈ qs then f (onQubits rs g events q) else onQubits rs g events q) =
    if q ∈ rs then g (onQubits qs f events q) else onQubits qs f events q
  by_cases hq : q ∈ qs
  · have hr : q ∉ rs := fun hr => h hq hr
    simp [onQubits, hq, hr]
  · simp [onQubits, hq]

/-- Puts a turn in front of a history. One turn after another does not count. -/
def turn : List Event → List Event
  | .turned :: events => .turned :: events
  | events => .turned :: events

theorem turn_turn (events : List Event) : turn (turn events) = turn events := by
  rcases events with _ | ⟨_ | _, events⟩ <;> rfl

/-- The meaning that keeps the histories of qubits: their CX gates, and where between them they are turned. -/
def history : Meaning α (Function.End Histories) where
  gate
    | .cx control target => onQubits [control, target] (.cx control target :: ·)
    | .rotation _ q _ => onQubits [q] turn
    | .general q _ => onQubits [q] turn
  commute g h hdisj := by cases g <;> cases h <;> exact commute_onQubits hdisj _ _

theorem history_gate {g : Gate α} {q : Qubit} (h : g.qubit? = some q) : history.gate g = onQubits [q] turn := by
  cases g <;> cases h <;> rfl

/-- Gates of one qubit, however many, turn it. -/
theorem history_list {gs : List (Gate α)} {q : Qubit} (hne : gs ≠ []) (h : ∀ g ∈ gs, g.qubit? = some q) :
    history.list gs = onQubits [q] turn := by
  induction gs with
  | nil => exact absurd rfl hne
  | cons g gs ih =>
    obtain ⟨hg, hgs⟩ := List.forall_mem_cons.1 h
    rw [list_cons, history_gate hg]
    by_cases hnil : gs = []
    · rw [hnil, list_nil, mul_one]
    · rw [ih hnil hgs, onQubits_mul]
      exact congrArg _ (funext turn_turn)

/-! ## Compilation that keeps a meaning -/

variable [Scalar α]

/-- The native equivalents of single gates and the optimized one-qubit sequences mean the same as what they stand for. -/
structure SoundFor (p : Profile) : Prop where
  native : ∀ (g : Gate α) (out : List (Gate α)), g.toNative p = .ok out → m.list out = m.gate g
  optimized : ∀ run out : List (Gate α), Sequence.optimize p run = .ok out → m.list out = m.list run

variable {m} {p : Profile}

theorem SoundFor.allToNative (hm : m.SoundFor p) {gs out : List (Gate α)} (h : Gate.allToNative p gs = .ok out) :
    m.list out = m.list gs := by
  induction gs generalizing out with
  | nil =>
    cases h
    rfl
  | cons g gs ih =>
    obtain ⟨here, rest, hh, hr, rfl⟩ := Gate.allToNative_cons_eq_ok_iff.1 h
    rw [list_append, list_cons, hm.native g here hh, ih hr]

/-! ## The loop over runs -/

/-- What has been put out, followed by what waits, means the same before and after a run has ended. -/
theorem SoundFor.flush (hm : m.SoundFor p) {s t : Run.Progress α} {q : Qubit} (hs : s.OneQubit)
    (h : Run.flush p s q = .ok t) : m.list t.done * m.list t.waiting = m.list s.done * m.list s.waiting := by
  obtain ⟨out, hout, rfl⟩ := Run.flush_eq_ok_iff.1 h
  rw [list_append, hm.optimized _ out hout, mul_assoc, ← m.list_filter_isOn q hs]

theorem SoundFor.step (hm : m.SoundFor p) {s t : Run.Progress α} {g : Gate α} (hs : s.OneQubit)
    (h : Run.step p s g = .ok t) :
    m.list t.done * m.list t.waiting = m.list s.done * m.list s.waiting * m.gate g := by
  rcases Run.step_cases h with ⟨control, target, r₁, r₂, rfl, h₁, h₂, rfl⟩ | ⟨-, rfl⟩
  · have hone : r₂.OneQubit := (hs.flush h₁).flush h₂
    have hflush : m.list r₂.done * m.list r₂.waiting = m.list s.done * m.list s.waiting := by
      rw [hm.flush (hs.flush h₁) h₂, hm.flush hs h₁]
    -- What still waits is on neither qubit of the CX, so the CX may come first.
    have hcomm : Commute (m.gate (.cx control target)) (m.list r₂.waiting) := by
      apply m.commute_list
      intro g' hg'
      obtain ⟨q, hq⟩ := hone g' hg'
      have hc : q ≠ control :=
        Run.ne_of_isOn_eq_false hq (Run.isOn_eq_false_of_flush h₁ g' (Run.mem_waiting_of_flush h₂ hg'))
      have ht : q ≠ target := Run.ne_of_isOn_eq_false hq (Run.isOn_eq_false_of_flush h₂ g' hg')
      rw [Gate.qubits_of_qubit? hq, Gate.qubits]
      simp [hc, ht]
    calc m.list (r₂.done ++ [.cx control target]) * m.list r₂.waiting
        = m.list r₂.done * (m.gate (.cx control target) * m.list r₂.waiting) := by simp [mul_assoc]
      _ = m.list r₂.done * m.list r₂.waiting * m.gate (.cx control target) := by rw [hcomm.eq, mul_assoc]
      _ = m.list s.done * m.list s.waiting * m.gate (.cx control target) := by rw [hflush]
  · simp [mul_assoc]

theorem SoundFor.optimizeGates (hm : m.SoundFor p) {gates out : List (Gate α)}
    (h : Run.optimizeGates p gates = .ok out) : m.list out = m.list gates := by
  obtain ⟨s, hs, hmean, hfin⟩ := Run.optimizeGates_eq_ok
    (Q := fun gs s => m.list s.done * m.list s.waiting = m.list gs) (by simp)
    (fun gs s g t hs hQ hst => by rw [hm.step hs hst, hQ]; simp) h
  have hend := Run.finish_eq_ok hs hfin (Q := fun t => t.OneQubit ∧ m.list t.done * m.list t.waiting = m.list gates)
    (fun s t q hs hst => ⟨hs.1.flush hst, by rw [hm.flush hs.1 hst, hs.2]⟩) ⟨hs, hmean⟩
  simpa using hend.2

/-! ## Passes and pipelines -/

theorem SoundFor.output (hm : m.SoundFor p) {pass : Pass} {c d : Circuit α} (h : pass.output p c = .ok d) :
    m.list d.gates = m.list c.gates := by
  obtain ⟨-, h⟩ := Pass.output_eq_ok_iff.1 h
  cases pass with
  | nativeSubstitution =>
    obtain ⟨gs, hgs, hd⟩ := h
    obtain ⟨-, -, rfl⟩ := Circuit.ofGates_eq_ok_iff.1 hd
    exact hm.allToNative hgs
  | runOptimization =>
    obtain ⟨gs, hgs, hd⟩ := h
    obtain ⟨-, -, rfl⟩ := Circuit.ofGates_eq_ok_iff.1 hd
    exact hm.optimizeGates hgs
  | nativeVerification => rw [h.2]

theorem SoundFor.run (hm : m.SoundFor p) {passes : Pipeline} {c d : Circuit α}
    (h : (Pipeline.run p passes).apply c = (.ok (), d)) : m.list d.gates = m.list c.gates := by
  induction passes generalizing c with
  | nil =>
    cases h
    rfl
  | cons pass passes ih =>
    obtain ⟨b, hb, h⟩ := Pipeline.run_cons_eq_ok_iff.1 h
    rw [ih h]
    rcases Pass.outcome_eq_ok hb with hb | ⟨-, rfl⟩
    · exact hm.output hb
    · rfl

/-- Compilation neither adds nor drops a CX, nor does it move one past another. -/
theorem cxOrder_soundFor (p : Profile) : (cxOrder : Meaning α _).SoundFor p where
  native g out h := by
    rw [cxOrder_list, Gate.filter_isCx_toNative h, ← cxOrder_list]
    simp
  optimized run out h := by
    rw [cxOrder_list out, cxOrder_list run]
    rcases Sequence.optimize_shape h with ⟨rfl, rfl⟩ | ⟨q, hrun, hout, -⟩
    · rfl
    · have hnone : run.filter Gate.isCx = [] := by
        rw [List.filter_eq_nil_iff]
        intro g hg
        simp [Gate.isCx_eq_false_of_qubit? (hrun g hg).1]
      rw [hnone, hout.filter_isCx]

end Meaning

/-! ## Machines that leave out no rotation -/

section NoZero

variable [Scalar α] {p : Profile} (hzero : ∀ angle : α, Angle.isZero angle = false)

include hzero

theorem Rendering.gates_ne_nil (r : Rendering) (e : Euler α) (q : Qubit) : r.gates e q ≠ [] := by
  cases r <;> simp [gates, sandwich, turn, hzero]

theorem Sequence.Turn.simplify_ne_nil {ts : List (Turn α)} (h : ts ≠ []) : simplify ts ≠ [] := by
  have hsingle (t : Turn α) : single t = [t] := by simp [single, hzero]
  have hshort {ts : List (Turn α)} (h : ts ≠ []) : short ts ≠ [] := by
    unfold short
    split
    · simp [hsingle]
    · simp only [pair, merge?, hsingle]
      split <;> simp
    · exact h
  unfold simplify
  split
  · unfold triple
    split
    · exact hshort (by simp)
    · split
      · exact hshort (by simp)
      · split
        · simp [hsingle]
        · simp
  · exact hshort h

theorem Sequence.optimize_ne_nil {gs out : List (Gate α)} (hne : gs ≠ []) (h : optimize p gs = .ok out) : out ≠ [] := by
  have hsynthesize {q : Qubit} (h : synthesize p q gs = .ok out) : out ≠ [] := by
    obtain ⟨r, e, -, rfl⟩ := exists_rendering_of_synthesize h
    exact Rendering.gates_ne_nil hzero r e q
  rcases optimize_cases h with ⟨rfl, -⟩ | ⟨q, -, ⟨-, hmade⟩ | ⟨-, hchosen⟩⟩
  · exact absurd rfl hne
  · exact hsynthesize hmade
  · rcases choose_cases hchosen with ⟨rfl, -⟩ | ⟨hmade, -⟩
    · rcases peephole_cases gs with hp | ⟨r, ts, -, hts, hp⟩
      · rwa [hp]
      · rw [hp]
        simpa [Turn.gates] using Turn.simplify_ne_nil hzero hts
    · exact hsynthesize hmade

theorem Gate.toNative_ne_nil {g : Gate α} {out : List (Gate α)} (h : g.toNative p = .ok out) : out ≠ [] := by
  obtain ⟨-, h⟩ := toNative_eq_ok_iff.1 h
  split at h
  · cases h
    simp
  · cases g with
    | cx control target => cases h
    | rotation a q θ =>
      cases a with
      | z => cases h
      | _ =>
        cases h
        simp
    | general q e =>
      obtain ⟨r, -, hsel⟩ := Rendering.select_eq_ok p e q
      simp only [substitute, Sequence.decompose, check_bind_eq_ok, hsel] at h
      obtain ⟨-, -, h⟩ := h
      cases h
      exact Rendering.gates_ne_nil hzero r e q

/-- If no rotation is left out, compilation turns the qubits that the circuit turns. -/
theorem Meaning.history_soundFor (p : Profile) : (history : Meaning α _).SoundFor p where
  native g out h := by
    rcases (Gate.toNative_cases h).2 with ⟨rfl, -⟩ | ⟨q, hq, hout⟩
    · simp
    · rw [history_list (Gate.toNative_ne_nil hzero h) hout.qubit?_eq, history_gate hq]
  optimized run out h := by
    rcases Sequence.optimize_cases h with ⟨rfl, rfl⟩ | ⟨q, ⟨hne, hrun⟩, -⟩
    · rfl
    · have hqubit : ∀ g ∈ run, g.qubit? = some q := fun g hg => (hrun g hg).1
      have hout := Sequence.rotationsOn_optimize h hqubit
      rw [history_list (Sequence.optimize_ne_nil hzero hne h) hout.qubit?_eq, history_list hne hqubit]

end NoZero

/-! ## Compiled circuits -/

/-- An angle that nobody has measured. It is not known to be small, so no rotation is left out. -/
inductive Unmeasured where
  | unknown
deriving DecidableEq, Repr

instance : Scalar Unmeasured where
  add _ _ := .unknown
  sub _ _ := .unknown
  mul _ _ := .unknown
  div _ _ := .unknown
  neg _ := .unknown
  lt _ _ := False
  ofScientific _ _ _ := .unknown
  decidableLT _ _ := .isFalse id
  abs _ := .unknown
  sqrt _ := .unknown
  sin _ := .unknown
  cos _ := .unknown
  atan2 _ _ := .unknown
  hypot _ _ := .unknown
  rem _ _ := .unknown
  pi := .unknown
  isFinite _ := true
  isNaN _ := false

/-- Two runs on two qubits, interleaved, before and after a CX. -/
def interleaved : Circuit Float where
  width := 2
  gates := [.rotation .x ⟨0⟩ 90.0, .rotation .z ⟨1⟩ 30.0, .rotation .x ⟨0⟩ 90.0, .rotation .z ⟨1⟩ 30.0, .cx ⟨0⟩ ⟨1⟩,
    .rotation .y ⟨1⟩ 40.0, .rotation .y ⟨1⟩ (-40.0), .cx ⟨1⟩ ⟨0⟩]

def interleavedCompiled : Circuit Float where
  width := 2
  gates := [.rotation .x ⟨0⟩ 180.0, .rotation .z ⟨1⟩ 60.0, .cx ⟨0⟩ ⟨1⟩, .cx ⟨1⟩ ⟨0⟩]

/-- Two runs on two qubits, interleaved, before, between and after CX gates. -/
def unmeasured : Circuit Unmeasured where
  width := 2
  gates := [.rotation .x ⟨0⟩ .unknown, .rotation .z ⟨1⟩ .unknown, .rotation .x ⟨0⟩ .unknown, .cx ⟨0⟩ ⟨1⟩,
    .rotation .y ⟨1⟩ .unknown, .general ⟨1⟩ ⟨.unknown, .unknown, .unknown⟩, .cx ⟨1⟩ ⟨0⟩, .rotation .x ⟨0⟩ .unknown]

def unmeasuredCompiled : Circuit Unmeasured where
  width := 2
  gates := [.rotation .x ⟨0⟩ .unknown, .rotation .z ⟨1⟩ .unknown, .cx ⟨0⟩ ⟨1⟩, .rotation .z ⟨1⟩ .unknown,
    .rotation .y ⟨1⟩ .unknown, .rotation .z ⟨1⟩ .unknown, .cx ⟨1⟩ ⟨0⟩, .rotation .x ⟨0⟩ .unknown]

namespace Meaning

/-- **Compilation keeps the meaning.** Whenever a pipeline of any passes succeeds, in any order and number, the circuit it
leaves means what the circuit before meant; so does the circuit with optimized runs. -/
theorem compilation_preserves_meaning {α : Type} {M : Type*} [Scalar α] [Monoid M] (m : Meaning α M) (p : Profile)
    (hm : m.SoundFor p) (c : Circuit α) :
    (∀ (passes : Pipeline) (d : Circuit α), (passes.run p).apply c = (.ok (), d) → m.list d.gates = m.list c.gates) ∧
      ∀ d : Circuit α, Run.optimizeCircuit p c = .ok d → m.list d.gates = m.list c.gates := by
  refine ⟨fun passes d h => hm.run h, fun d h => ?_⟩
  rw [Run.optimizeCircuit_eq_output] at h
  exact hm.output h

/-- On doubles the CX gates stay in their order. Where no rotation is left out, each run stays between its CX gates: a
rotation on the other side of a CX is another history. -/
theorem compilation_preserves_meaning_interleaved :
    ((cxOrder : Meaning Float _).SoundFor (.pair .xyz) ∧
      ((Pipeline.ofLevel 1).run (.pair .xyz)).apply interleaved = (.ok (), interleavedCompiled) ∧
      cxOrder.list interleavedCompiled.gates = cxOrder.list interleaved.gates) ∧
    ((history : Meaning Unmeasured _).SoundFor (.pair .xyz) ∧
      ((Pipeline.ofLevel 1).run (.pair .xyz)).apply unmeasured = (.ok (), unmeasuredCompiled) ∧
      history.list unmeasuredCompiled.gates = history.list unmeasured.gates) ∧
    history.list [(.rotation .x ⟨0⟩ .unknown : Gate Unmeasured), .cx ⟨0⟩ ⟨1⟩] ≠
      history.list [(.cx ⟨0⟩ ⟨1⟩ : Gate Unmeasured), .rotation .x ⟨0⟩ .unknown] := by
  refine ⟨?_, ?_, fun h => ?_⟩
  · have hsound : (cxOrder : Meaning Float _).SoundFor (.pair .xyz) := cxOrder_soundFor _
    have hrun : ((Pipeline.ofLevel 1).run (.pair .xyz)).apply interleaved = (.ok (), interleavedCompiled) := by
      decide +kernel
    exact ⟨hsound, hrun, (compilation_preserves_meaning cxOrder (.pair .xyz) hsound interleaved).1 _ _ hrun⟩
  · have hsound : (history : Meaning Unmeasured _).SoundFor (.pair .xyz) := history_soundFor (fun _ => rfl) _
    have hrun : ((Pipeline.ofLevel 1).run (.pair .xyz)).apply unmeasured = (.ok (), unmeasuredCompiled) := by
      decide +kernel
    exact ⟨hsound, hrun, (compilation_preserves_meaning history (.pair .xyz) hsound unmeasured).1 _ _ hrun⟩
  · have hfirst := congrFun (congrFun h fun _ => []) ⟨0⟩
    cases hfirst

end Meaning

end RotationCircuits
