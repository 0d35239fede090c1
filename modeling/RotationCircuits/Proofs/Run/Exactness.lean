import Mathlib.Data.List.Induction
import RotationCircuits.Proofs.Run.Order
import RotationCircuits.Proofs.Runnable

/-!
# Runs are split exactly

The runs of a qubit are the parts of a gate list between the CX gates on that qubit, with the gates of other qubits left
out (`runs`). Optimizing a circuit optimizes each of these runs and changes nothing else; it fails if and only if the
circuit is too wide, a run cannot be optimized, or the result is no circuit (`optimizeCircuit_splits_runs`).
-/

namespace RotationCircuits.Run

open Hardware (Profile)

variable {α : Type}

/-- The gates on a qubit before, between and after the CX gates that touch it. -/
def runs (q : Qubit) (gs : List (Gate α)) : List (List (Gate α)) :=
  (gs.splitOnP (endsRun q)).map (List.filter (isOn q))

/-- The parts of the gates to come: the first of them continues the last run. -/
theorem all_foldl_next (q : Qubit) (gs : List (Gate α)) (r : Runs α) :
    (gs.foldl (Runs.next q) r).all = r.closed ++ (runs q gs).modifyHead (r.last ++ ·) := by
  induction gs generalizing r with
  | nil => simp [runs, Runs.all]
  | cons g gs ih =>
    obtain ⟨part, parts, hparts⟩ := List.exists_cons_of_ne_nil (List.splitOnP_ne_nil (endsRun q) gs)
    rw [List.foldl_cons, ih, Runs.next]
    by_cases hend : endsRun q g = true
    · simp [runs, List.splitOnP_cons_eq_if_modifyHead, hend, hparts]
    · by_cases hon : isOn q g = true
      · simp [runs, List.splitOnP_cons_eq_if_modifyHead, hend, hon, hparts]
      · simp [runs, List.splitOnP_cons_eq_if_modifyHead, hend, hon, hparts]

theorem all_of_eq_runs (q : Qubit) (gs : List (Gate α)) : (Runs.of q gs).all = runs q gs := by
  rw [Runs.of, all_foldl_next]
  cases h : runs q gs <;> simp

theorem isOn_of_mem_run {q : Qubit} {gs run : List (Gate α)} (hrun : run ∈ runs q gs) {g : Gate α} (hg : g ∈ run) :
    isOn q g = true := by
  obtain ⟨part, -, rfl⟩ := List.mem_map.1 hrun
  exact (List.mem_filter.1 hg).2

/-- The runs of a qubit hold the gates on it. -/
theorem exists_mem_runs_iff {q : Qubit} {g : Gate α} {gs : List (Gate α)} (hon : isOn q g = true) :
    (∃ run ∈ runs q gs, g ∈ run) ↔ g ∈ gs := by
  rw [← all_of_eq_runs]
  -- A gate that ends a run of the qubit is not on the qubit, so it is not the one that is looked for.
  induction gs using List.reverseRecOn with
  | nil => simp [Runs.of, Runs.all]
  | append_singleton gs g' ih =>
    have hother (h : isOn q g' = false) : g ≠ g' := by
      rintro rfl
      rw [hon] at h
      cases h
    rw [Runs.of_concat, List.mem_append, List.mem_singleton, ← ih]
    unfold Runs.next Runs.all
    by_cases hend : endsRun q g' = true
    · cases g' with
      | cx control target => simp [hend, hother (isOn_cx q control target), or_and_right, exists_or]
      | rotation a r θ => cases hend
      | general r e => cases hend
    · by_cases hg' : isOn q g' = true
      · simp [hend, hg', or_and_right, exists_or, or_assoc]
      · simp [hend, hg', hother (Bool.eq_false_iff.2 hg')]

/-- A loop that fails does so at one of its steps. -/
theorem exists_step_of_foldlM_eq_error {ε β σ : Type} {f : σ → β → Except ε σ} {bs : List β} {s : σ} {e : ε}
    (h : bs.foldlM f s = .error e) :
    ∃ seen b rest t, bs = seen ++ b :: rest ∧ seen.foldlM f s = .ok t ∧ f t b = .error e := by
  induction bs generalizing s with
  | nil => cases h
  | cons b bs ih =>
    rw [List.foldlM_cons] at h
    rcases bind_eq_error.1 h with h | ⟨t, ht, h⟩
    · exact ⟨[], b, bs, s, rfl, rfl, h⟩
    · obtain ⟨seen, b', rest, u, rfl, hu, hb⟩ := ih h
      refine ⟨b :: seen, b', rest, u, rfl, ?_, hb⟩
      rw [List.foldlM_cons, ht]
      exact hu

variable [Scalar α] {p : Profile}

theorem optimize_eq_error_of_flush {s : Progress α} {q : Qubit} {e : Error α} (h : flush p s q = .error e) :
    Sequence.optimize p (s.waiting.filter (isOn q)) = .error e := by
  rcases bind_eq_error.1 h with h | ⟨out, -, h⟩
  · exact h
  · cases h

/-- The run that is ended without success is the last run of its qubit. -/
theorem Pending.optimize_eq_error {q : Qubit} {gs : List (Gate α)} {s : Progress α} {e : Error α} (hs : Pending p q gs s)
    (h : flush p s q = .error e) : Sequence.optimize p (Runs.of q gs).last = .error e := by
  rw [← hs.waiting]
  exact optimize_eq_error_of_flush h

/-- A run that is done cannot fail any more. -/
theorem Ended.isOk_flush {q : Qubit} {gs : List (Gate α)} {s : Progress α} (hs : Ended p q gs s) :
    ∃ t, Run.flush p s q = .ok t := by
  refine ⟨_, flush_eq_ok_iff.2 ⟨[], ?_, rfl⟩⟩
  rw [hs.waiting, Sequence.optimize_nil]

/-- A step that fails ends a run, which the CX closes. -/
theorem exists_run_of_step_eq_error {gs : List (Gate α)} {s : Progress α} {g : Gate α} {e : Error α}
    (hs : ∀ q, Pending p q gs s) (h : step p s g = .error e) :
    ∃ q, endsRun q g = true ∧ Sequence.optimize p (Runs.of q gs).last = .error e := by
  cases g with
  | rotation a q θ => cases h
  | general q u => cases h
  | cx control target =>
    rcases bind_eq_error.1 h with h | ⟨r₁, h₁, h⟩
    · exact ⟨control, by simp [endsRun], (hs control).optimize_eq_error h⟩
    rcases bind_eq_error.1 h with h | ⟨r₂, -, h⟩
    · refine ⟨target, by simp [endsRun], ?_⟩
      by_cases hct : control = target
      · subst hct
        obtain ⟨t, ht⟩ := ((hs control).flush_self h₁).isOk_flush
        rw [ht] at h
        cases h
      · exact ((hs target).flush_of_ne hct h₁).optimize_eq_error h
    · cases h

theorem exists_run_of_finish_eq_error {gs : List (Gate α)} {s : Progress α} {e : Error α} (hs : ∀ q, Pending p q gs s)
    (h : finish p s = .error e) : ∃ q, Sequence.optimize p (Runs.of q gs).last = .error e := by
  rcases bind_eq_error.1 h with h | ⟨t, -, h⟩
  · obtain ⟨seen, q, rest, t, -, ht, hq⟩ := exists_step_of_foldlM_eq_error h
    refine ⟨q, ?_⟩
    rcases foldlM_flush_keeps (fun _ _ _ => pending_or_ended_flush) (.inl (hs q)) ht with hp | he
    · exact hp.optimize_eq_error hq
    · obtain ⟨u, hu⟩ := he.isOk_flush
      rw [hu] at hq
      cases hq
  · cases h

/-- The loop fails only where a run cannot be optimized. -/
theorem exists_run_of_optimizeGates_eq_error {gates : List (Gate α)} {e : Error α} (h : optimizeGates p gates = .error e) :
    ∃ q, ∃ run ∈ runs q gates, Sequence.optimize p run = .error e := by
  have hloop : ∀ {seen : List (Gate α)} {s : Progress α}, seen.foldlM (step p) ⟨[], []⟩ = .ok s →
      ∀ q, Pending p q seen s := by
    intro seen s hs q
    exact (foldlM_step_eq_ok (Q := Pending p q) (fun _ _ _ _ _ hs h => hs.step h) Progress.oneQubit_start
      (Pending.start p q) hs).2
  rcases bind_eq_error.1 h with h | ⟨s, hs, h⟩
  · obtain ⟨seen, g, rest, s, rfl, hs, hg⟩ := exists_step_of_foldlM_eq_error h
    obtain ⟨q, hend, hq⟩ := exists_run_of_step_eq_error (hloop hs) hg
    refine ⟨q, (Runs.of q seen).last, ?_, hq⟩
    rw [runs, List.splitOnP_append_cons seen rest hend, List.map_append]
    have hmem : (Runs.of q seen).last ∈ (Runs.of q seen).all := by simp [Runs.all]
    rw [all_of_eq_runs] at hmem
    exact List.mem_append_left _ hmem
  · obtain ⟨q, hq⟩ := exists_run_of_finish_eq_error (hloop hs) h
    refine ⟨q, (Runs.of q gates).last, ?_, hq⟩
    rw [← all_of_eq_runs]
    simp [Runs.all]

theorem optimizeCircuit_eq_ok_iff {c d : Circuit α} :
    optimizeCircuit p c = .ok d ↔
      c.width ≤ p.width ∧ ∃ gs, optimizeGates p c.gates = .ok gs ∧ Circuit.ofGates c.width gs = .ok d := by
  rw [optimizeCircuit_eq_output, Pass.output_eq_ok_iff]

theorem optimized_runs {gates out : List (Gate α)} (h : optimizeGates p gates = .ok out) (q : Qubit) :
    Optimized p (runs q gates) (runs q out) := by
  rw [← all_of_eq_runs, ← all_of_eq_runs]
  exact forall₂_optimize_runs h q

/-- The runs of the result, run by run. -/
theorem getElem?_runs_of_optimizeGates {gates out : List (Gate α)} (h : optimizeGates p gates = .ok out) (q : Qubit) :
    (runs q out).length = (runs q gates).length ∧
      ∀ (k : Nat) (run : List (Gate α)), (runs q gates)[k]? = some run →
        ∃ run', (runs q out)[k]? = some run' ∧ Sequence.optimize p run = .ok run' := by
  have hruns := optimized_runs h q
  refine ⟨hruns.length_eq.symm, fun k run hk => ?_⟩
  obtain ⟨hlt, rfl⟩ := List.getElem?_eq_some_iff.1 hk
  have hlt' : k < (runs q out).length := hruns.length_eq ▸ hlt
  exact ⟨(runs q out)[k], List.getElem?_eq_getElem hlt', hruns.get hlt hlt'⟩

/-- What comes out are the CX gates and the optimized runs. -/
theorem mem_optimizeGates_iff {gates out : List (Gate α)} (h : optimizeGates p gates = .ok out) {g : Gate α} :
    g ∈ out ↔ g.isCx = true ∧ g ∈ gates ∨
      ∃ q, ∃ run ∈ runs q gates, ∃ made, Sequence.optimize p run = .ok made ∧ g ∈ made := by
  have hcx : g.isCx = true ∧ g ∈ out ↔ g.isCx = true ∧ g ∈ gates := by
    have hfilter := (emitted_optimizeGates h).cx
    rw [and_comm, ← List.mem_filter, hfilter, List.mem_filter, and_comm]
  constructor
  · intro hg
    cases hq : g.qubit? with
    | none =>
      cases g with
      | cx control target => exact .inl (hcx.1 ⟨rfl, hg⟩)
      | rotation a r θ => cases hq
      | general r e => cases hq
    | some q =>
      obtain ⟨made, hmade, hmem⟩ := (exists_mem_runs_iff (isOn_iff.2 hq)).2 hg
      obtain ⟨run, hrun, hopt⟩ := (optimized_runs h q).exists_run hmade
      exact .inr ⟨q, run, hrun, made, hopt, hmem⟩
  · rintro (hcx' | ⟨q, run, hrun, made, hopt, hmem⟩)
    · exact (hcx.2 hcx').2
    · obtain ⟨made', hmade, hopt'⟩ := (optimized_runs h q).exists_out hrun
      rw [hopt] at hopt'
      cases hopt'
      exact (exists_mem_runs_iff (isOn_of_mem_run hmade hmem)).1 ⟨made, hmade, hmem⟩

/-- The three reasons for which a circuit cannot be optimized. -/
theorem optimizeCircuit_fails_iff {c : Circuit α} :
    (∃ e, optimizeCircuit p c = .error e) ↔
      p.width < c.width ∨ (∃ q, ∃ run ∈ runs q c.gates, ∃ e, Sequence.optimize p run = .error e) ∨
        ∃ gs, optimizeGates p c.gates = .ok gs ∧ ∃ e, Circuit.ofGates c.width gs = .error e := by
  constructor
  · rintro ⟨e, he⟩
    rcases Nat.lt_or_ge p.width c.width with hwidth | hwidth
    · exact .inl hwidth
    cases hgates : optimizeGates p c.gates with
    | error e' =>
      obtain ⟨q, run, hmem, hrun⟩ := exists_run_of_optimizeGates_eq_error hgates
      exact .inr (.inl ⟨q, run, hmem, e', hrun⟩)
    | ok gs =>
      cases hc : Circuit.ofGates c.width gs with
      | error e' => exact .inr (.inr ⟨gs, rfl, e', hc⟩)
      | ok d =>
        rw [optimizeCircuit_eq_ok_iff.2 ⟨hwidth, gs, hgates, hc⟩] at he
        cases he
  · intro hfail
    cases h : optimizeCircuit p c with
    | error e => exact ⟨e, rfl⟩
    | ok d =>
      obtain ⟨hwidth, gs, hgates, hd⟩ := optimizeCircuit_eq_ok_iff.1 h
      rcases hfail with hfail | ⟨q, run, hmem, e, hrun⟩ | ⟨gs', hgates', e, he⟩
      · omega
      · obtain ⟨made, -, hmade⟩ := (optimized_runs hgates q).exists_out hmem
        rw [hrun] at hmade
        cases hmade
      · rw [hgates] at hgates'
        cases hgates'
        rw [hd] at he
        cases he

/-- **Runs are split exactly.** If a circuit can be optimized, its CX gates stay, and for every qubit the runs of the result
are the optimized runs of the input, one by one; an empty run stays empty. It cannot be optimized exactly if it is wider
than the target, or one of its runs cannot be optimized, or the optimized gates are no circuit. In which order the qubits
with open runs are listed at the end does not matter. -/
theorem optimizeCircuit_splits_runs (p : Profile) (c : Circuit α) :
    (∀ d, optimizeCircuit p c = .ok d →
      d.gates.filter Gate.isCx = c.gates.filter Gate.isCx ∧
        ∀ q, (runs q d.gates).length = (runs q c.gates).length ∧
          ∀ (k : Nat) (run : List (Gate α)), (runs q c.gates)[k]? = some run →
            ∃ out, (runs q d.gates)[k]? = some out ∧ Sequence.optimize p run = .ok out) ∧
      Sequence.optimize p ([] : List (Gate α)) = .ok [] ∧
      ((∃ e, optimizeCircuit p c = .error e) ↔
        p.width < c.width ∨ (∃ q, ∃ run ∈ runs q c.gates, ∃ e, Sequence.optimize p run = .error e) ∨
          ∃ gs, optimizeGates p c.gates = .ok gs ∧ ∃ e, Circuit.ofGates c.width gs = .error e) ∧
      ∀ keys : Progress α → List Qubit, (∀ s q, q ∈ keys s ↔ ∃ g ∈ s.waiting, g.qubit? = some q) →
        optimizeGatesIn keys p c.gates = optimizeGates p c.gates := by
  refine ⟨fun d hd => ?_, Sequence.optimize_nil p, optimizeCircuit_fails_iff, fun keys hkeys =>
    optimizeGatesIn_eq hkeys c.gates⟩
  obtain ⟨-, gs, hgates, hd⟩ := optimizeCircuit_eq_ok_iff.1 hd
  obtain ⟨-, -, rfl⟩ := Circuit.ofGates_eq_ok_iff.1 hd
  exact ⟨(emitted_optimizeGates hgates).cx, getElem?_runs_of_optimizeGates hgates⟩

theorem optimizeCircuit_splits_runs_inTurns :
    optimizeCircuit (.pair .xyz) inTurns = .ok inTurnsOptimized ∧
      (runs ⟨1⟩ inTurns.gates)[1]? = some [.rotation .x ⟨1⟩ 30.0, .rotation .x ⟨1⟩ 30.0] ∧
      (∃ out, (runs ⟨1⟩ inTurnsOptimized.gates)[1]? = some out ∧
        Sequence.optimize (.pair .xyz) [.rotation .x ⟨1⟩ (30.0 : Float), .rotation .x ⟨1⟩ 30.0] = .ok out) ∧
      optimizeGatesIn (fun s => (s.waiting.filterMap Gate.qubit?).reverse) (.pair .xyz) inTurns.gates =
        optimizeGates (.pair .xyz) inTurns.gates := by
  have hok : optimizeCircuit (.pair .xyz) inTurns = .ok inTurnsOptimized := by decide +kernel
  have hrun : (runs ⟨1⟩ inTurns.gates)[1]? = some [.rotation .x ⟨1⟩ 30.0, .rotation .x ⟨1⟩ 30.0] := by decide +kernel
  obtain ⟨hsplit, -, -, hkeys⟩ := optimizeCircuit_splits_runs (.pair .xyz) inTurns
  exact ⟨hok, hrun, ((hsplit _ hok).2 ⟨1⟩).2 1 _ hrun, hkeys _ fun s q => by simp [List.mem_filterMap]⟩

end RotationCircuits.Run
