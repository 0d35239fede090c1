import RotationCircuits.Proofs.Outcome

/-!
# The loop over runs

One step of the loop takes in a gate: a CX ends the runs of its two qubits and is put out after them, any other gate waits.
`step_cases` says all that a step can do. `foldlM_step_eq_ok` is the induction over the loop: a relation between the gates
taken in and the progress that every step extends holds after any number of steps. At the end the last runs are ended, and
then nothing waits any more (`finish_eq_ok`).
-/

namespace RotationCircuits.Run

open Hardware (Profile)

variable {α : Type}

/-- Only one-qubit gates wait. -/
def Progress.OneQubit (s : Progress α) : Prop := ∀ g ∈ s.waiting, ∃ q, g.qubit? = some q

theorem Progress.oneQubit_start : (⟨[], []⟩ : Progress α).OneQubit := by simp [OneQubit]

theorem isOn_iff {q : Qubit} {g : Gate α} : isOn q g = true ↔ g.qubit? = some q := by simp [isOn]

theorem isOn_cx (q control target : Qubit) : isOn q (.cx control target : Gate α) = false := by
  simp [isOn, Gate.qubit?]

/-- No gate is on two qubits. -/
theorem isOn_eq_false_of_ne {q r : Qubit} {g : Gate α} (h : isOn q g = true) (hne : q ≠ r) : isOn r g = false := by
  rw [isOn_iff] at h
  simp [isOn, h, hne]

theorem ne_of_isOn_eq_false {q r : Qubit} {g : Gate α} (hr : g.qubit? = some r) (h : isOn q g = false) : r ≠ q := by
  rintro rfl
  rw [isOn_iff.2 hr] at h
  cases h

theorem mem_insertQubit {q r : Qubit} {qs : List Qubit} : r ∈ insertQubit q qs ↔ r = q ∨ r ∈ qs := by
  induction qs with
  | nil => simp [insertQubit]
  | cons s qs ih =>
    rw [insertQubit]
    split
    · simp
    · rw [List.mem_cons, ih, List.mem_cons]
      exact or_left_comm

theorem mem_sortQubits {q : Qubit} {qs : List Qubit} : q ∈ sortQubits qs ↔ q ∈ qs := by
  induction qs with
  | nil => simp [sortQubits]
  | cons r qs ih =>
    rw [sortQubits, List.foldr_cons, mem_insertQubit, List.mem_cons]
    exact or_congr_right ih

variable [Scalar α] {p : Profile}

/-! ## Ending a run -/

theorem flush_eq_ok_iff {s t : Progress α} {q : Qubit} :
    flush p s q = .ok t ↔
      ∃ out, Sequence.optimize p (s.waiting.filter (isOn q)) = .ok out ∧
        t = ⟨s.done ++ out, s.waiting.filter fun g => !isOn q g⟩ := by
  rw [flush, bind_eq_ok]
  simp [pure, Except.pure, eq_comm]

theorem waiting_flush {s t : Progress α} {q : Qubit} (h : flush p s q = .ok t) :
    t.waiting = s.waiting.filter fun g => !isOn q g := by
  obtain ⟨out, -, rfl⟩ := flush_eq_ok_iff.1 h
  rfl

theorem Progress.OneQubit.flush {s t : Progress α} {q : Qubit} (hs : s.OneQubit) (h : flush p s q = .ok t) :
    t.OneQubit := by
  intro g hg
  rw [waiting_flush h] at hg
  exact hs g (List.mem_filter.1 hg).1

/-- After a run has ended no gate of its qubit waits. -/
theorem isOn_eq_false_of_flush {s t : Progress α} {q : Qubit} (h : flush p s q = .ok t) :
    ∀ g ∈ t.waiting, isOn q g = false := by
  intro g hg
  rw [waiting_flush h] at hg
  simpa using (List.mem_filter.1 hg).2

/-- Ending a run lets no gate join those that wait. -/
theorem mem_waiting_of_flush {s t : Progress α} {q : Qubit} (h : flush p s q = .ok t) {g : Gate α}
    (hg : g ∈ t.waiting) : g ∈ s.waiting := by
  rw [waiting_flush h] at hg
  exact (List.mem_filter.1 hg).1

/-! ## One step -/

/-- All that a step can do. -/
theorem step_cases {s t : Progress α} {g : Gate α} (h : step p s g = .ok t) :
    (∃ control target r₁ r₂, g = .cx control target ∧ flush p s control = .ok r₁ ∧ flush p r₁ target = .ok r₂ ∧
      t = ⟨r₂.done ++ [g], r₂.waiting⟩) ∨
    (∃ q, g.qubit? = some q) ∧ t = ⟨s.done, s.waiting ++ [g]⟩ := by
  cases g with
  | cx control target =>
    simp only [step, bind_eq_ok] at h
    obtain ⟨r₁, h₁, r₂, h₂, ht⟩ := h
    exact .inl ⟨control, target, r₁, r₂, rfl, h₁, h₂, by simpa [pure, Except.pure, eq_comm] using ht⟩
  | rotation a q θ => exact .inr ⟨⟨q, rfl⟩, by simpa [step, eq_comm] using h⟩
  | general q e => exact .inr ⟨⟨q, rfl⟩, by simpa [step, eq_comm] using h⟩

theorem Progress.OneQubit.step {s t : Progress α} {g : Gate α} (hs : s.OneQubit) (h : Run.step p s g = .ok t) :
    t.OneQubit := by
  rcases step_cases h with ⟨control, target, r₁, r₂, -, h₁, h₂, rfl⟩ | ⟨hq, rfl⟩
  · have hr : r₂.OneQubit := (hs.flush h₁).flush h₂
    exact hr
  · intro g' hg'
    rcases List.mem_append.1 hg' with hg' | hg'
    · exact hs g' hg'
    · rw [List.mem_singleton.1 hg']
      exact hq

/-! ## The whole loop -/

/-- What every flush keeps holds after any number of them. -/
theorem foldlM_flush_keeps {Q : Progress α → Prop}
    (hflush : ∀ s t q, Q s → flush p s q = .ok t → Q t) {qs : List Qubit} {s t : Progress α} (hs : Q s)
    (h : qs.foldlM (flush p) s = .ok t) : Q t := by
  induction qs generalizing s with
  | nil =>
    rw [List.foldlM_nil] at h
    cases h
    exact hs
  | cons q qs ih =>
    rw [List.foldlM_cons, bind_eq_ok] at h
    obtain ⟨r, hr, h⟩ := h
    exact ih (hflush s r q hs hr) h

/-- Once the runs of some qubits have ended, no gate of these qubits waits. -/
theorem isOn_eq_false_of_foldlM_flush {qs : List Qubit} {s t : Progress α} (h : qs.foldlM (flush p) s = .ok t) :
    ∀ q ∈ qs, ∀ g ∈ t.waiting, isOn q g = false := by
  induction qs generalizing s with
  | nil => simp
  | cons q qs ih =>
    rw [List.foldlM_cons, bind_eq_ok] at h
    obtain ⟨r, hr, h⟩ := h
    rw [List.forall_mem_cons]
    refine ⟨?_, ih h⟩
    -- The flushes after that of `q` add nothing to what waits.
    exact foldlM_flush_keeps (Q := fun u => ∀ g ∈ u.waiting, isOn q g = false)
      (fun u v r hu hv g hg => hu g (mem_waiting_of_flush hv hg)) (isOn_eq_false_of_flush hr) h

/-- At the end the runs that are left are ended one by one, until nothing waits. -/
theorem finish_eq_ok {s : Progress α} (hs : s.OneQubit) {out : List (Gate α)} (h : finish p s = .ok out)
    {Q : Progress α → Prop} (hflush : ∀ s t q, Q s → flush p s q = .ok t → Q t) (hQ : Q s) : Q ⟨out, []⟩ := by
  rw [finish, bind_eq_ok] at h
  obtain ⟨t, ht, h⟩ := h
  have hempty : t.waiting = [] := by
    rw [List.eq_nil_iff_forall_not_mem]
    intro g hg
    -- A gate that still waits was there from the start, so its run has been ended.
    have hmem : g ∈ s.waiting := foldlM_flush_keeps (Q := fun u => ∀ g ∈ u.waiting, g ∈ s.waiting)
      (fun u v r hu hv g hg => hu g (mem_waiting_of_flush hv hg)) (fun _ hg => hg) ht g hg
    obtain ⟨q, hq⟩ := hs g hmem
    have hsort : q ∈ sortQubits (s.waiting.filterMap Gate.qubit?) :=
      mem_sortQubits.2 (List.mem_filterMap.2 ⟨g, hmem, hq⟩)
    exact ne_of_isOn_eq_false hq (isOn_eq_false_of_foldlM_flush ht q hsort g hg) rfl
  have hout : t = ⟨out, []⟩ := by
    cases t
    simp_all [pure, Except.pure]
  rw [← hout]
  exact foldlM_flush_keeps hflush hQ ht

/-- **Induction over the loop.** `Q` relates the gates taken in so far to the progress. -/
theorem foldlM_step_eq_ok {Q : List (Gate α) → Progress α → Prop}
    (hstep : ∀ gs s g t, s.OneQubit → Q gs s → step p s g = .ok t → Q (gs ++ [g]) t) {seen rest : List (Gate α)}
    {s t : Progress α} (hs : s.OneQubit) (hQ : Q seen s) (h : rest.foldlM (step p) s = .ok t) :
    t.OneQubit ∧ Q (seen ++ rest) t := by
  induction rest generalizing seen s with
  | nil =>
    rw [List.foldlM_nil] at h
    cases h
    exact ⟨hs, by simpa using hQ⟩
  | cons g rest ih =>
    rw [List.foldlM_cons, bind_eq_ok] at h
    obtain ⟨r, hr, h⟩ := h
    simpa using ih (hs.step hr) (hstep seen s g r hs hQ hr) h

theorem optimizeGates_eq_ok {Q : List (Gate α) → Progress α → Prop} (hnil : Q [] ⟨[], []⟩)
    (hstep : ∀ gs s g t, s.OneQubit → Q gs s → step p s g = .ok t → Q (gs ++ [g]) t) {gates out : List (Gate α)}
    (h : optimizeGates p gates = .ok out) : ∃ s, s.OneQubit ∧ Q gates s ∧ finish p s = .ok out := by
  rw [optimizeGates, bind_eq_ok] at h
  obtain ⟨s, hs, h⟩ := h
  obtain ⟨h₁, h₂⟩ := foldlM_step_eq_ok hstep Progress.oneQubit_start hnil hs
  exact ⟨s, h₁, h₂, h⟩

end RotationCircuits.Run
