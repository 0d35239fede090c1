import RotationCircuits.Pipeline

/-!
# Outcomes of checks, passes and pipelines

When a check passes, when a chain of steps succeeds or fails, and which circuit a pass or a pipeline leaves behind. A pass
is described by `Pass.output`, a plain function of the circuit: it either replaces the whole circuit or does not touch it
(`Pass.apply_run`). A pipeline is the chain of these outputs (`Pipeline.apply_run_cons`).
-/

namespace RotationCircuits

open Hardware (Profile)

/-! ## Chains of steps that may fail -/

theorem bind_eq_ok {ε β γ : Type} {x : Except ε β} {f : β → Except ε γ} {r : γ} :
    (x >>= f) = .ok r ↔ ∃ b, x = .ok b ∧ f b = .ok r := by
  cases x <;> simp [bind, Except.bind]

theorem bind_eq_error {ε β γ : Type} {x : Except ε β} {f : β → Except ε γ} {e : ε} :
    (x >>= f) = .error e ↔ x = .error e ∨ ∃ b, x = .ok b ∧ f b = .error e := by
  cases x <;> simp [bind, Except.bind]

/-- A chain that starts with a check goes on exactly if the check passes. -/
theorem check_bind_eq_ok {ε γ : Type} {x : Except ε Unit} {f : Unit → Except ε γ} {r : γ} :
    (x >>= f) = .ok r ↔ x = .ok () ∧ f () = .ok r := by
  cases x <;> simp [bind, Except.bind]

variable {α : Type}

/-! ## Checks -/

theorem Hardware.Profile.checkWidth_eq_ok_iff {p : Profile} {width : Nat} :
    (p.checkWidth width : Except (Error α) Unit) = .ok () ↔ width ≤ p.width := by
  unfold checkWidth
  split <;> simp_all

theorem Hardware.Profile.checkQubit_eq_ok_iff {p : Profile} {q : Qubit} :
    (p.checkQubit q : Except (Error α) Unit) = .ok () ↔ q.index.toNat < p.width := by
  unfold checkQubit
  split <;> simp_all

theorem Hardware.Profile.checkQubits_eq_ok_iff {p : Profile} {qs : List Qubit} :
    (p.checkQubits qs : Except (Error α) Unit) = .ok () ↔ ∀ q ∈ qs, q.index.toNat < p.width := by
  induction qs with
  | nil => simp [checkQubits]
  | cons q qs ih =>
    rw [checkQubits, check_bind_eq_ok, List.forall_mem_cons, ih, checkQubit_eq_ok_iff]

variable [Scalar α]

theorem Sequence.validateAll_eq_ok_iff {gs : List (Gate α)} :
    validateAll gs = .ok () ↔ ∀ g ∈ gs, g.validate = .ok () := by
  induction gs with
  | nil => simp [validateAll]
  | cons g gs ih =>
    rw [validateAll, List.forall_mem_cons, ← ih]
    cases g.validate <;> simp

/-- Valid, and on qubits of a register of the given width. -/
def Gate.Fits (width : Nat) (g : Gate α) : Prop :=
  g.validate = .ok () ∧ ∀ q ∈ g.qubits, q.index.toNat < width

theorem Gate.Fits.mono {g : Gate α} {m n : Nat} (h : g.Fits m) (hmn : m ≤ n) : g.Fits n :=
  ⟨h.1, fun q hq => Nat.lt_of_lt_of_le (h.2 q hq) hmn⟩

/-- A CX that fits needs two qubits. -/
theorem Gate.Fits.two_le {width : Nat} {control target : Qubit} (h : (Gate.cx control target : Gate α).Fits width) :
    2 ≤ width := by
  obtain ⟨hv, hq⟩ := h
  have hc := hq control (by simp [Gate.qubits])
  have ht := hq target (by simp [Gate.qubits])
  rcases Gate.validate_cx_iff.1 hv with ⟨_, h1⟩ | ⟨h1, _⟩
  · rw [h1] at ht
    exact ht
  · rw [h1] at hc
    exact hc

namespace Circuit

theorem pushAll_eq_ok_iff {c d : Circuit α} {gs : List (Gate α)} :
    c.pushAll gs = .ok d ↔ (∀ g ∈ gs, g.Fits c.width) ∧ d = ⟨c.width, c.gates ++ gs⟩ := by
  induction gs generalizing c with
  | nil => simp [pushAll, eq_comm]
  | cons g gs ih =>
    rw [pushAll, bind_eq_ok, List.forall_mem_cons]
    constructor
    · rintro ⟨b, hb, hd⟩
      obtain ⟨hv, hq, rfl⟩ := push_eq_ok_iff.1 hb
      obtain ⟨hgs, rfl⟩ := ih.1 hd
      exact ⟨⟨⟨hv, hq⟩, hgs⟩, by simp⟩
    · rintro ⟨⟨⟨hv, hq⟩, hgs⟩, rfl⟩
      exact ⟨_, push_eq_ok_iff.2 ⟨hv, hq, rfl⟩, ih.2 ⟨hgs, by simp⟩⟩

/-- If only validity can fail, all gates are appended or an invalid one is refused. -/
theorem pushAll_cases {c : Circuit α} {gs : List (Gate α)} (hq : ∀ g ∈ gs, ∀ q ∈ g.qubits, q.index.toNat < c.width) :
    (∀ g ∈ gs, g.validate = .ok ()) ∧ c.pushAll gs = .ok ⟨c.width, c.gates ++ gs⟩ ∨
      ∃ g ∈ gs, ∃ e, g.validate = .error e ∧ c.pushAll gs = .error e := by
  induction gs generalizing c with
  | nil => exact .inl ⟨List.forall_mem_nil _, by simp [pushAll]⟩
  | cons g gs ih =>
    rw [List.forall_mem_cons] at hq
    cases hv : g.validate with
    | error e => exact .inr ⟨g, List.mem_cons_self, e, hv, by rw [pushAll, push, hv]; rfl⟩
    | ok _ =>
      have hpush : c.pushAll (g :: gs) = pushAll { c with gates := c.gates ++ [g] } gs := by
        rw [pushAll, push_eq_ok_iff.2 ⟨hv, hq.1, rfl⟩]
        rfl
      rw [hpush]
      rcases ih (c := { c with gates := c.gates ++ [g] }) hq.2 with ⟨hvalid, hok⟩ | ⟨g', hg', e, he, herr⟩
      · exact .inl ⟨List.forall_mem_cons.2 ⟨hv, hvalid⟩, by simp [hok]⟩
      · exact .inr ⟨g', List.mem_cons_of_mem g hg', e, he, herr⟩

/-- A circuit can be built exactly if the width is supported and every gate fits, and then it holds these gates. -/
theorem ofGates_eq_ok_iff {width : Nat} {gs : List (Gate α)} {c : Circuit α} :
    ofGates width gs = .ok c ↔ (width = 1 ∨ width = 2) ∧ (∀ g ∈ gs, g.Fits width) ∧ c = ⟨width, gs⟩ := by
  rw [ofGates, bind_eq_ok]
  constructor
  · rintro ⟨b, hb, hc⟩
    obtain ⟨hw, rfl⟩ := empty_eq_ok_iff.1 hb
    exact ⟨hw, by simpa using pushAll_eq_ok_iff.1 hc⟩
  · rintro ⟨hw, hgs, rfl⟩
    exact ⟨_, empty_eq_ok_iff.2 ⟨hw, rfl⟩, pushAll_eq_ok_iff.2 ⟨hgs, by simp⟩⟩

theorem width_of_ofGates {width : Nat} {gs : List (Gate α)} {c : Circuit α} (h : ofGates width gs = .ok c) :
    c.width = width := by
  rw [(ofGates_eq_ok_iff.1 h).2.2]

theorem wellFormed_of_ofGates {width : Nat} {gs : List (Gate α)} {c : Circuit α} (h : ofGates width gs = .ok c) :
    c.WellFormed := by
  obtain ⟨hw, hgs, rfl⟩ := ofGates_eq_ok_iff.1 h
  exact ⟨hw, hgs⟩

/-- The circuit with other gates, or the compilation error that they cause. -/
def rebuild (c : Circuit α) (gs : List (Gate α)) : Except (Error α) (Circuit α) := (c.setGates gs).mapError .circuit

theorem rebuild_eq_ok_iff {c d : Circuit α} {gs : List (Gate α)} :
    c.rebuild gs = .ok d ↔ ofGates c.width gs = .ok d := by
  unfold rebuild setGates
  -- The two sides differ in the type of their errors only.
  cases ofGates c.width gs with
  | ok b =>
    constructor <;> intro h
    · cases h
      rfl
    · cases h
      rfl
  | error e => constructor <;> intro h <;> cases h

/-- If only validity can fail, a circuit is rebuilt or an invalid gate is refused. -/
theorem rebuild_cases {c : Circuit α} {gs : List (Gate α)} (hw : c.width = 1 ∨ c.width = 2)
    (hq : ∀ g ∈ gs, ∀ q ∈ g.qubits, q.index.toNat < c.width) :
    (∀ g ∈ gs, g.validate = .ok ()) ∧ c.rebuild gs = .ok ⟨c.width, gs⟩ ∨
      ∃ g ∈ gs, ∃ e, g.validate = .error e ∧ c.rebuild gs = .error (.circuit e) := by
  have hrebuild : c.rebuild gs = (pushAll ⟨c.width, []⟩ gs).mapError .circuit := by
    rw [rebuild, setGates, ofGates, empty_eq_ok_iff.2 ⟨hw, rfl⟩]
    rfl
  rw [hrebuild]
  rcases pushAll_cases (c := ⟨c.width, []⟩) hq with ⟨hvalid, hok⟩ | ⟨g, hg, e, he, herr⟩
  · exact .inl ⟨hvalid, by rw [hok]; rfl⟩
  · exact .inr ⟨g, hg, e, he, by rw [herr]; rfl⟩

theorem exists_circuit_of_rebuild_eq_error {c : Circuit α} {gs : List (Gate α)} {e : Error α}
    (h : c.rebuild gs = .error e) : ∃ e', e = .circuit e' := by
  unfold rebuild setGates at h
  cases hc : ofGates c.width gs with
  | ok d =>
    rw [hc] at h
    cases h
  | error e' =>
    rw [hc] at h
    cases h
    exact ⟨e', rfl⟩

end Circuit

/-! ## What a pass makes of a circuit -/

namespace Pass

/-- The circuit that a pass makes, or its error. -/
def output (pass : Pass) (p : Profile) (c : Circuit α) : Except (Error α) (Circuit α) := do
  p.checkWidth c.width
  match pass with
  | nativeSubstitution => c.rebuild (← Gate.allToNative p c.gates)
  | runOptimization => c.rebuild (← Run.optimizeGates p c.gates)
  | nativeVerification =>
    match c.gates.find? fun g => !p.supports g with
    | some g => throw (.notNative g)
    | none => return c

/-- The end of an edit that replaces the circuit as a whole: after a failure the circuit is still there. -/
def settle (c : Circuit α) : Except (Error α) (Circuit α) → Except (Error α) Unit × Circuit α
  | .ok d => (.ok (), d)
  | .error e => (.error e, c)

theorem apply_setGates (gs : List (Gate α)) (c : Circuit α) :
    (Edit.update (·.setGates gs)).apply c = settle c (c.rebuild gs) := by
  rw [Edit.apply_update, Circuit.rebuild]
  cases c.setGates gs <;> rfl

theorem apply_run (pass : Pass) (p : Profile) (c : Circuit α) : (pass.run p).apply c = settle c (pass.output p c) := by
  unfold run output
  simp only [Edit.checkWidth, Edit.apply_bind, Edit.apply_get, Edit.apply_ofExcept]
  cases p.checkWidth c.width with
  | error e => rfl
  | ok _ =>
    cases pass with
    | nativeSubstitution =>
      simp only [Edit.apply_bind, Edit.apply_get, Edit.apply_ofExcept]
      cases Gate.allToNative p c.gates with
      | error e => rfl
      | ok gs => exact apply_setGates gs c
    | runOptimization =>
      simp only [Edit.apply_bind, Edit.apply_get, Edit.apply_ofExcept]
      cases Run.optimizeGates p c.gates with
      | error e => rfl
      | ok gs => exact apply_setGates gs c
    | nativeVerification =>
      simp only [Edit.apply_bind, Edit.apply_get]
      cases h : c.gates.find? fun g => !p.supports g <;> rfl

theorem output_eq_ok_iff {pass : Pass} {p : Profile} {c d : Circuit α} :
    pass.output p c = .ok d ↔
      c.width ≤ p.width ∧
        match pass with
        | nativeSubstitution => ∃ gs, Gate.allToNative p c.gates = .ok gs ∧ Circuit.ofGates c.width gs = .ok d
        | runOptimization => ∃ gs, Run.optimizeGates p c.gates = .ok gs ∧ Circuit.ofGates c.width gs = .ok d
        | nativeVerification => p.supportsAll c.gates = true ∧ d = c := by
  unfold output
  rw [check_bind_eq_ok, Hardware.Profile.checkWidth_eq_ok_iff]
  refine and_congr_right fun _ => ?_
  cases pass with
  | nativeSubstitution => simp only [bind_eq_ok, Circuit.rebuild_eq_ok_iff]
  | runOptimization => simp only [bind_eq_ok, Circuit.rebuild_eq_ok_iff]
  | nativeVerification =>
    cases h : c.gates.find? fun g => !p.supports g with
    | none =>
      have hall : p.supportsAll c.gates = true := by simpa [Profile.supportsAll] using h
      simp [hall, pure, Except.pure, eq_comm]
    | some g =>
      have hg : p.supports g = false := by simpa using List.find?_some h
      have hmem := List.mem_of_find?_eq_some h
      have hall : ¬ p.supportsAll c.gates = true := by
        intro hall
        rw [Profile.supportsAll, List.all_eq_true] at hall
        rw [hall g hmem] at hg
        cases hg
      simp [hall, throw, throwThe, MonadExceptOf.throw]

/-- A pass that succeeds leaves the circuit as it is or rebuilds it on the same register. -/
theorem output_cases {pass : Pass} {p : Profile} {c d : Circuit α} (h : pass.output p c = .ok d) :
    d = c ∨ ∃ gs, Circuit.ofGates c.width gs = .ok d := by
  obtain ⟨-, h⟩ := output_eq_ok_iff.1 h
  cases pass with
  | nativeSubstitution =>
    obtain ⟨gs, -, hd⟩ := h
    exact .inr ⟨gs, hd⟩
  | runOptimization =>
    obtain ⟨gs, -, hd⟩ := h
    exact .inr ⟨gs, hd⟩
  | nativeVerification => exact .inl h.2

end Pass

/-- Optimizing a circuit gives what the pass of that name makes of it. -/
theorem Run.optimizeCircuit_eq_output (p : Profile) (c : Circuit α) :
    optimizeCircuit p c = Pass.runOptimization.output p c := by
  unfold optimizeCircuit Pass.output
  refine congrArg _ (funext fun _ => congrArg _ (funext fun gs => ?_))
  rw [Circuit.rebuild, Circuit.setGates]
  cases Circuit.ofGates c.width gs <;> rfl

/-! ## What a pipeline makes of a circuit -/

/-- What a pipeline goes on with after a pass, which it may leave out. -/
def Pass.outcome (pass : Pass) (p : Profile) (c : Circuit α) : Except (Error α) (Circuit α) :=
  if pass.shouldRun p c then pass.output p c else .ok c

theorem Pass.outcome_eq_ok {pass : Pass} {p : Profile} {c d : Circuit α} (h : pass.outcome p c = .ok d) :
    pass.output p c = .ok d ∨ pass.shouldRun p c = false ∧ d = c := by
  unfold outcome at h
  cases hrun : pass.shouldRun p c with
  | false =>
    rw [hrun] at h
    cases h
    exact .inr ⟨rfl, rfl⟩
  | true =>
    rw [hrun] at h
    exact .inl h

theorem Pass.outcome_eq_error {pass : Pass} {p : Profile} {c : Circuit α} {e : Error α}
    (h : pass.outcome p c = .error e) : pass.output p c = .error e := by
  unfold outcome at h
  split at h
  · exact h
  · cases h

namespace Pipeline

theorem apply_run_cons (p : Profile) (pass : Pass) (passes : Pipeline) (c : Circuit α) :
    (run p (pass :: passes)).apply c =
      match pass.outcome p c with
      | .ok d => (run p passes).apply d
      | .error e => (.error e, c) := by
  rw [run, Edit.apply_bind, Edit.apply_get, Pass.outcome]
  dsimp only
  cases pass.shouldRun p c with
  | false => simp
  | true =>
    simp only [if_true, Edit.apply_bind, Pass.apply_run]
    cases pass.output p c <;> rfl

variable {p : Profile} {pass : Pass} {passes : Pipeline} {c d : Circuit α}

theorem run_cons_eq_ok_iff :
    (run p (pass :: passes)).apply c = (.ok (), d) ↔
      ∃ b, pass.outcome p c = .ok b ∧ (run p passes).apply b = (.ok (), d) := by
  rw [apply_run_cons]
  cases pass.outcome p c <;> simp

theorem run_cons_eq_error_iff {e : Error α} :
    (run p (pass :: passes)).apply c = (.error e, d) ↔
      (pass.outcome p c = .error e ∧ d = c) ∨
        ∃ b, pass.outcome p c = .ok b ∧ (run p passes).apply b = (.error e, d) := by
  rw [apply_run_cons]
  cases pass.outcome p c <;> simp [eq_comm]

end Pipeline

end RotationCircuits
