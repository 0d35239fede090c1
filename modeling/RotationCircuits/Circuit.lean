import RotationCircuits.Gate.Text

/-!
# Circuits

A circuit is a register width and a list of gates in the order of application. `Circuit.empty`, `push` and `ofGates`
check widths, gates and qubits; a circuit that was decoded from outside may break these rules.
-/

namespace RotationCircuits

/-- Gates in application order on a register of `width` qubits. -/
structure Circuit (α : Type) where
  width : Nat
  gates : List (Gate α)
deriving BEq, DecidableEq, Repr

namespace Circuit

variable {α : Type}

/-- The empty circuit on one or two qubits. -/
def empty (width : Nat) : Except (CircuitError α) (Circuit α) :=
  if width = 1 ∨ width = 2 then .ok ⟨width, []⟩ else .error (.unsupportedWidth width)

/-- Checks that a qubit is in the register; `gate` names the gate that needs it. -/
def checkQubit (c : Circuit α) (gate : Option String) (q : Qubit) : Except (CircuitError α) Unit :=
  if q.index.toNat < c.width then .ok () else .error (.qubitOutOfRange q c.width gate)

theorem empty_eq_ok_iff {width : Nat} {c : Circuit α} :
    empty width = .ok c ↔ (width = 1 ∨ width = 2) ∧ c = ⟨width, []⟩ := by
  unfold empty
  split <;> simp_all [eq_comm]

/-- Checks that all these qubits are in the register. -/
def checkQubits (c : Circuit α) (gate : Option String) : List Qubit → Except (CircuitError α) Unit
  | [] => .ok ()
  | q :: qs => do
    c.checkQubit gate q
    c.checkQubits gate qs

theorem checkQubits_eq_ok_iff {c : Circuit α} {gate : Option String} {qs : List Qubit} :
    c.checkQubits gate qs = .ok () ↔ ∀ q ∈ qs, q.index.toNat < c.width := by
  induction qs with
  | nil => simp [checkQubits]
  | cons q qs ih =>
    by_cases h : q.index.toNat < c.width
    · simp [checkQubits, checkQubit, h, bind, Except.bind, ih]
    · simp [checkQubits, checkQubit, h, bind, Except.bind]

def cxCount (c : Circuit α) : Nat := c.gates.countP Gate.isCx

variable [Scalar α]

/-- One or two qubits, and every gate is valid and in range. -/
def WellFormed (c : Circuit α) : Prop :=
  (c.width = 1 ∨ c.width = 2) ∧ ∀ g ∈ c.gates, g.validate = .ok () ∧ ∀ q ∈ g.qubits, q.index.toNat < c.width

/-- Appends a gate that is valid and in range. The pair of a CX is checked once more at the end. -/
def push (c : Circuit α) (g : Gate α) : Except (CircuitError α) (Circuit α) := do
  g.validate
  c.checkQubits g.name g.qubits
  g.checkPair
  return { c with gates := c.gates ++ [g] }

theorem push_eq_ok_iff {c d : Circuit α} {g : Gate α} :
    c.push g = .ok d ↔
      g.validate = .ok () ∧ (∀ q ∈ g.qubits, q.index.toNat < c.width) ∧ d = { c with gates := c.gates ++ [g] } := by
  unfold push
  cases hv : g.validate with
  | error e => simp [bind, Except.bind]
  | ok u =>
    rw [← checkQubits_eq_ok_iff, Gate.checkPair_of_validate hv]
    cases c.checkQubits (some g.name) g.qubits with
    | error e => simp [bind, Except.bind]
    | ok u => simp [bind, Except.bind, pure, Except.pure, eq_comm]

theorem WellFormed.push {c d : Circuit α} {g : Gate α} (hc : c.WellFormed) (h : c.push g = .ok d) : d.WellFormed := by
  obtain ⟨hv, hq, rfl⟩ := push_eq_ok_iff.1 h
  refine ⟨hc.1, fun g' hg' => ?_⟩
  rcases List.mem_append.1 hg' with hg' | hg'
  · exact hc.2 g' hg'
  · rw [List.mem_singleton.1 hg']
    exact ⟨hv, hq⟩

def pushAll : Circuit α → List (Gate α) → Except (CircuitError α) (Circuit α)
  | c, [] => .ok c
  | c, g :: gs => do (← c.push g).pushAll gs

def ofGates (width : Nat) (gates : List (Gate α)) : Except (CircuitError α) (Circuit α) := do
  (← empty width).pushAll gates

/-- The circuit with other gates on the same register. -/
def setGates (c : Circuit α) (gates : List (Gate α)) : Except (CircuitError α) (Circuit α) :=
  ofGates c.width gates

/-- Appends the CX gate on a supported pair. -/
def pushCx (c : Circuit α) (control target : Qubit) : Except (CircuitError α) (Circuit α) := do
  c.push (← Gate.checkedCx control target)

/-- The characters of gates of which `i` come before: every gate but the very first has a separator in front. -/
def charsFrom : Nat → List (Gate Float) → List Char
  | _, [] => []
  | i, g :: gs => (if 0 < i then [',', ' '] else []) ++ (g.chars ++ charsFrom (i + 1) gs)

/-- The text of a circuit: its gates, or `[]`. -/
def text (c : Circuit Float) : String := if c.gates.isEmpty then "[]" else .ofList (charsFrom 0 c.gates)

end Circuit

end RotationCircuits
