import Mathlib.Data.List.Forall2
import RotationCircuits.Proofs.Native
import RotationCircuits.Proofs.Run.Loop

/-!
# How a circuit splits into runs

`Runs.of q` cuts a gate list at the CX gates that touch `q` and keeps the gates on `q` of each part. The loop treats each of
these runs by itself: the runs of its result are the optimized runs of its input (`forall₂_optimize_runs`), although they
are put out in another order. The invariant says, for every qubit, that its closed runs are done and that its last run
waits (`Pending`) or is done as well (`Ended`).
-/

namespace RotationCircuits.Run

open Hardware (Profile)

variable {α : Type}

/-- Does this gate end the run of a qubit? -/
def endsRun (q : Qubit) : Gate α → Bool
  | .cx control target => q = control ∨ q = target
  | _ => false

/-- The runs of a qubit: those that a CX has ended, and the one after the last CX. -/
structure Runs (α : Type) where
  closed : List (List (Gate α))
  last : List (Gate α)

namespace Runs

/-- The runs of a qubit with one more gate. -/
def next (q : Qubit) (r : Runs α) (g : Gate α) : Runs α :=
  if endsRun q g then ⟨r.closed ++ [r.last], []⟩
  else if isOn q g then { r with last := r.last ++ [g] }
  else r

/-- The runs of a qubit in a gate list. -/
def of (q : Qubit) (gs : List (Gate α)) : Runs α := gs.foldl (next q) ⟨[], []⟩

/-- All runs in their order. -/
def all (r : Runs α) : List (List (Gate α)) := r.closed ++ [r.last]

theorem of_append (q : Qubit) (gs hs : List (Gate α)) : of q (gs ++ hs) = hs.foldl (next q) (of q gs) :=
  List.foldl_append

theorem of_concat (q : Qubit) (gs : List (Gate α)) (g : Gate α) : of q (gs ++ [g]) = (of q gs).next q g :=
  of_append q gs [g]

theorem next_of_endsRun {q : Qubit} {g : Gate α} (h : endsRun q g = true) (r : Runs α) :
    r.next q g = ⟨r.closed ++ [r.last], []⟩ := by
  simp [next, h]

theorem next_cx_of_ne {q control target : Qubit} (hc : q ≠ control) (ht : q ≠ target) (r : Runs α) :
    r.next q (.cx control target) = r := by
  simp [next, endsRun, isOn_cx, hc, ht]

/-- Gates between two CX gates lengthen the last run by those on its qubit. -/
theorem foldl_next_of_isCx_eq_false {q : Qubit} {gs : List (Gate α)} (h : ∀ g ∈ gs, g.isCx = false) (r : Runs α) :
    gs.foldl (next q) r = { r with last := r.last ++ gs.filter (isOn q) } := by
  induction gs generalizing r with
  | nil => simp
  | cons g gs ih =>
    rw [List.forall_mem_cons] at h
    rw [List.foldl_cons, ih h.2]
    cases g with
    | cx control target => cases h.1
    | rotation a s θ => by_cases hs : s = q <;> simp [next, endsRun, isOn, Gate.qubit?, hs]
    | general s e => by_cases hs : s = q <;> simp [next, endsRun, isOn, Gate.qubit?, hs]

theorem closed_subset_foldl_next (q : Qubit) (gs : List (Gate α)) (r : Runs α) :
    r.closed ⊆ (gs.foldl (next q) r).closed := by
  induction gs generalizing r with
  | nil => exact fun _ h => h
  | cons g gs ih =>
    intro run hrun
    refine ih (r.next q g) ?_
    rw [next]
    split
    · exact List.mem_append_left _ hrun
    · split <;> exact hrun

/-- Later gates do not take apart what is in the last run. -/
theorem exists_run_of_foldl_next (q : Qubit) (gs : List (Gate α)) (r : Runs α) :
    ∃ run ∈ (gs.foldl (next q) r).all, r.last <+: run := by
  induction gs generalizing r with
  | nil => exact ⟨r.last, by simp [all], List.prefix_rfl⟩
  | cons g gs ih =>
    rw [List.foldl_cons]
    by_cases hend : endsRun q g = true
    · refine ⟨r.last, ?_, List.prefix_rfl⟩
      rw [next_of_endsRun hend]
      exact List.mem_append_left _ (closed_subset_foldl_next q gs _ (by simp))
    · obtain ⟨run, hrun, hpre⟩ := ih (r.next q g)
      refine ⟨run, hrun, List.IsPrefix.trans ?_ hpre⟩
      rw [next, if_neg hend]
      split
      · exact List.prefix_append _ _
      · exact List.prefix_rfl

/-- The gates on a qubit between two CX gates belong to one run. -/
theorem exists_run_of_infix {q : Qubit} {mid gs : List (Gate α)} (h : mid <:+: gs) (hmid : ∀ g ∈ mid, g.isCx = false) :
    ∃ run ∈ (of q gs).all, mid.countP (isOn q) ≤ run.length := by
  obtain ⟨before, after, rfl⟩ := h
  rw [of_append, of_append, foldl_next_of_isCx_eq_false hmid]
  obtain ⟨run, hrun, hpre⟩ := exists_run_of_foldl_next q after
    { of q before with last := (of q before).last ++ mid.filter (isOn q) }
  refine ⟨run, hrun, ?_⟩
  have hlen := hpre.length_le
  rw [List.length_append, ← List.countP_eq_length_filter] at hlen
  omega

end Runs

/-- Rotations of a qubit are in its own last run and in no run of another qubit. -/
theorem runs_of_append_rotationsOn {p : Profile} {r : Qubit} {out : List (Gate α)} (h : p.RotationsOn r out) (q : Qubit)
    (gs : List (Gate α)) :
    Runs.of q (gs ++ out) = { Runs.of q gs with last := (Runs.of q gs).last ++ if r = q then out else [] } := by
  have hcx : ∀ g ∈ out, g.isCx = false := fun g hg => Gate.isCx_eq_false_of_qubit? (h.qubit?_eq g hg)
  have hfilter : out.filter (isOn q) = if r = q then out else [] := by
    split
    · rw [List.filter_eq_self]
      intro g hg
      simpa [isOn, h.qubit?_eq g hg]
    · rw [List.filter_eq_nil_iff]
      intro g hg
      simpa [isOn, h.qubit?_eq g hg]
  rw [Runs.of_append, Runs.foldl_next_of_isCx_eq_false hcx, hfilter]

/-! ## One qubit during the loop -/

variable [Scalar α] {p : Profile}

/-- The runs of a list are the optimized runs of another. -/
def Optimized (p : Profile) : List (List (Gate α)) → List (List (Gate α)) → Prop :=
  List.Forall₂ fun run out => Sequence.optimize p run = .ok out

/-- The closed runs of a qubit are done, and its last run waits. -/
structure Pending (p : Profile) (q : Qubit) (gs : List (Gate α)) (s : Progress α) : Prop where
  closed : Optimized p (Runs.of q gs).closed (Runs.of q s.done).closed
  waiting : s.waiting.filter (isOn q) = (Runs.of q gs).last
  done : (Runs.of q s.done).last = []

/-- All runs of a qubit are done. -/
structure Ended (p : Profile) (q : Qubit) (gs : List (Gate α)) (s : Progress α) : Prop where
  closed : Optimized p (Runs.of q gs).closed (Runs.of q s.done).closed
  waiting : s.waiting.filter (isOn q) = []
  last : Sequence.optimize p (Runs.of q gs).last = .ok (Runs.of q s.done).last

/-- What comes out of a run are native rotations of its qubit. -/
theorem rotationsOn_of_run {q : Qubit} {waiting out : List (Gate α)}
    (h : Sequence.optimize p (waiting.filter (isOn q)) = .ok out) : p.RotationsOn q out :=
  Sequence.rotationsOn_optimize h fun _ hg => isOn_iff.1 (List.mem_filter.1 hg).2

/-- What ending the run of `r` does to the runs of `q`. -/
theorem runs_of_flush {s t : Progress α} {r : Qubit} (h : flush p s r = .ok t) (q : Qubit) :
    ∃ out, Sequence.optimize p (s.waiting.filter (isOn r)) = .ok out ∧
      Runs.of q t.done = { Runs.of q s.done with last := (Runs.of q s.done).last ++ if r = q then out else [] } := by
  obtain ⟨out, hout, rfl⟩ := flush_eq_ok_iff.1 h
  exact ⟨out, hout, runs_of_append_rotationsOn (rotationsOn_of_run hout) q s.done⟩

theorem filter_isOn_flush_of_ne {s t : Progress α} {q r : Qubit} (hne : r ≠ q) (h : flush p s r = .ok t) :
    t.waiting.filter (isOn q) = s.waiting.filter (isOn q) := by
  rw [waiting_flush h, List.filter_filter]
  refine List.filter_congr fun g _ => ?_
  cases hq : isOn q g with
  | false => rfl
  | true => simp [isOn_eq_false_of_ne hq hne.symm]

theorem filter_isOn_flush_self {s t : Progress α} {q : Qubit} (h : flush p s q = .ok t) :
    t.waiting.filter (isOn q) = [] := by
  rw [List.filter_eq_nil_iff]
  intro g hg
  simp [isOn_eq_false_of_flush h g hg]

variable {q : Qubit} {gs : List (Gate α)} {s t : Progress α}

theorem Pending.flush_of_ne {r : Qubit} (hs : Pending p q gs s) (hne : r ≠ q) (h : flush p s r = .ok t) :
    Pending p q gs t := by
  obtain ⟨out, -, hruns⟩ := runs_of_flush h q
  rw [if_neg hne, List.append_nil] at hruns
  refine ⟨?_, (filter_isOn_flush_of_ne hne h).trans hs.waiting, ?_⟩
  · rw [hruns]
    exact hs.closed
  · rw [hruns]
    exact hs.done

theorem Pending.flush_self (hs : Pending p q gs s) (h : flush p s q = .ok t) : Ended p q gs t := by
  obtain ⟨out, hout, hruns⟩ := runs_of_flush h q
  rw [if_pos rfl, hs.done, List.nil_append] at hruns
  refine ⟨?_, filter_isOn_flush_self h, ?_⟩
  · rw [hruns]
    exact hs.closed
  · rw [hruns, ← hs.waiting]
    exact hout

/-- Once a run has ended, ending it again or ending another run changes nothing. -/
theorem Ended.flush {r : Qubit} (hs : Ended p q gs s) (h : flush p s r = .ok t) : Ended p q gs t := by
  have hdone : Runs.of q t.done = Runs.of q s.done := by
    obtain ⟨out, hout, hruns⟩ := runs_of_flush h q
    by_cases hr : r = q
    · subst hr
      rw [hs.waiting, Sequence.optimize_nil] at hout
      cases hout
      rwa [if_pos rfl, List.append_nil] at hruns
    · rwa [if_neg hr, List.append_nil] at hruns
  refine ⟨?_, ?_, ?_⟩
  · rw [hdone]
    exact hs.closed
  · have hidle := hs.waiting
    rw [List.filter_eq_nil_iff] at hidle ⊢
    exact fun g hg => hidle g (mem_waiting_of_flush h hg)
  · rw [hdone]
    exact hs.last

/-! ## The whole loop -/

theorem Optimized.concat {runs outs : List (List (Gate α))} {run out : List (Gate α)} (h : Optimized p runs outs)
    (hrun : Sequence.optimize p run = .ok out) : Optimized p (runs ++ [run]) (outs ++ [out]) :=
  List.rel_append h (.cons hrun .nil)

theorem Optimized.exists_run {runs outs : List (List (Gate α))} {out : List (Gate α)} (h : Optimized p runs outs)
    (hout : out ∈ outs) : ∃ run ∈ runs, Sequence.optimize p run = .ok out := by
  induction h with
  | nil => cases hout
  | cons hrun _ ih =>
    rcases List.mem_cons.1 hout with rfl | hout
    · exact ⟨_, List.mem_cons_self, hrun⟩
    · obtain ⟨run, hmem, hrun⟩ := ih hout
      exact ⟨run, List.mem_cons_of_mem _ hmem, hrun⟩

theorem Optimized.exists_out {runs outs : List (List (Gate α))} {run : List (Gate α)} (h : Optimized p runs outs)
    (hrun : run ∈ runs) : ∃ out ∈ outs, Sequence.optimize p run = .ok out := by
  induction h with
  | nil => cases hrun
  | cons hout _ ih =>
    rcases List.mem_cons.1 hrun with rfl | hrun
    · exact ⟨_, List.mem_cons_self, hout⟩
    · obtain ⟨out, hmem, hout⟩ := ih hrun
      exact ⟨out, List.mem_cons_of_mem _ hmem, hout⟩

/-- A CX closes a run that has ended. -/
theorem Ended.cx {g : Gate α} (hs : Ended p q gs s) (hg : endsRun q g = true) :
    Pending p q (gs ++ [g]) ⟨s.done ++ [g], s.waiting⟩ := by
  refine ⟨?_, ?_, ?_⟩
  · rw [Runs.of_concat, Runs.of_concat, Runs.next_of_endsRun hg, Runs.next_of_endsRun hg]
    exact hs.closed.concat hs.last
  · rw [Runs.of_concat, Runs.next_of_endsRun hg]
    exact hs.waiting
  · rw [Runs.of_concat, Runs.next_of_endsRun hg]

/-- One gate more keeps every qubit waiting for the end of its last run. -/
theorem Pending.step {g : Gate α} (hs : Pending p q gs s) (h : Run.step p s g = .ok t) : Pending p q (gs ++ [g]) t := by
  rcases step_cases h with ⟨control, target, r₁, r₂, rfl, h₁, h₂, rfl⟩ | ⟨⟨r, hr⟩, rfl⟩
  · by_cases hc : q = control
    · subst hc
      exact ((hs.flush_self h₁).flush h₂).cx (by simp [endsRun])
    · have hs₁ := hs.flush_of_ne (Ne.symm hc) h₁
      by_cases ht : q = target
      · subst ht
        exact (hs₁.flush_self h₂).cx (by simp [endsRun])
      · have hs₂ := hs₁.flush_of_ne (Ne.symm ht) h₂
        refine ⟨?_, ?_, ?_⟩
        · rw [Runs.of_concat, Runs.of_concat, Runs.next_cx_of_ne hc ht, Runs.next_cx_of_ne hc ht]
          exact hs₂.closed
        · rw [Runs.of_concat, Runs.next_cx_of_ne hc ht]
          exact hs₂.waiting
        · rw [Runs.of_concat, Runs.next_cx_of_ne hc ht]
          exact hs₂.done
  · have hg : ∀ g' ∈ [g], g'.isCx = false := by simpa using Gate.isCx_eq_false_of_qubit? hr
    have hruns := Runs.foldl_next_of_isCx_eq_false (q := q) hg (Runs.of q gs)
    rw [← Runs.of_append] at hruns
    refine ⟨?_, ?_, hs.done⟩
    · rw [hruns]
      exact hs.closed
    · rw [hruns, List.filter_append, hs.waiting]

theorem Pending.start (p : Profile) (q : Qubit) : Pending p q [] (⟨[], []⟩ : Progress α) := ⟨.nil, rfl, rfl⟩

/-- While the last runs are ended, the last run of a qubit waits or is done. -/
theorem pending_or_ended_flush {r : Qubit} (hs : Pending p q gs s ∨ Ended p q gs s) (h : flush p s r = .ok t) :
    Pending p q gs t ∨ Ended p q gs t := by
  rcases hs with hs | hs
  · by_cases hr : r = q
    · subst hr
      exact .inr (hs.flush_self h)
    · exact .inl (hs.flush_of_ne hr h)
  · exact .inr (hs.flush h)

/-- **Runs are optimized one by one.** The runs of every qubit in the result are its optimized runs in the input. -/
theorem forall₂_optimize_runs {gates out : List (Gate α)} (h : optimizeGates p gates = .ok out) (q : Qubit) :
    Optimized p (Runs.of q gates).all (Runs.of q out).all := by
  obtain ⟨s, hone, hs, hfinish⟩ := optimizeGates_eq_ok (Q := Pending p q)
    (Pending.start p q) (fun gs s g t _ hs h => hs.step h) h
  have hend := finish_eq_ok hone hfinish (Q := fun u => Pending p q gates u ∨ Ended p q gates u)
    (fun _ _ _ => pending_or_ended_flush) (.inl hs)
  rcases hend with hend | hend
  · -- Nothing waits, so the last run is empty and stays so.
    have hlast : (Runs.of q gates).last = [] := hend.waiting.symm
    refine hend.closed.concat ?_
    rw [hlast, hend.done]
    rfl
  · exact hend.closed.concat hend.last

end RotationCircuits.Run
