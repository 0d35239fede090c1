import RotationCircuits.Proofs.Outcome

/-!
# The shape of native and optimized gates

Whatever the angles are, a rendering holds at most three rotations of its qubit around native axes, and so does every
optimized sequence (`Sequence.optimize_shape`). Rendering never fails (`Rendering.select_eq_ok`); a gate has a native
equivalent as soon as it is valid and its qubits exist (`Gate.toNative_eq_ok`). So neither making a gate native nor
optimizing a sequence ever reports a gate that the target cannot run.
-/

namespace RotationCircuits

open Hardware (Profile)

variable {α : Type}

/-- Does an error say that the target cannot run some gate? -/
def Error.isForeignGate : Error α → Bool
  | notNative _ => true
  | untimed _ => true
  | _ => false

/-- Does an error say that gates are no sequence, or that their net operator has no Euler angles? -/
def Error.isNetError : Error α → Bool
  | notOneQubit _ => true
  | mixedQubits _ _ => true
  | residualPhase _ => true
  | _ => false

theorem Error.isForeignGate_of_isNetError {e : Error α} (h : e.isNetError = true) : e.isForeignGate = false := by
  cases e <;> simp_all [isNetError, isForeignGate]

/-- Rotations of one qubit around native axes. -/
def Hardware.Profile.RotationsOn (p : Profile) (q : Qubit) (gs : List (Gate α)) : Prop :=
  ∀ g ∈ gs, ∃ a θ, g = .rotation a q θ ∧ p.basis.contains a = true

theorem Hardware.Profile.contains_z (p : Profile) : p.basis.contains .z = true := by
  cases p.basis <;> rfl

theorem Hardware.Profile.contains_x_or_contains_y (p : Profile) :
    p.basis.contains .x = true ∨ p.basis.contains .y = true := by
  cases p.basis
  · exact .inl rfl
  · exact .inl rfl
  · exact .inr rfl

variable {p : Profile} {q : Qubit}

theorem Hardware.Profile.RotationsOn.qubit?_eq {gs : List (Gate α)} (h : p.RotationsOn q gs) :
    ∀ g ∈ gs, g.qubit? = some q := by
  intro g hg
  obtain ⟨a, θ, rfl, -⟩ := h g hg
  rfl

/-- Rotations have durations. -/
theorem Hardware.Profile.RotationsOn.totalDuration_eq_ok {gs : List (Gate α)} (h : p.RotationsOn q gs) :
    ∃ d, p.totalDuration gs = .ok d := by
  induction gs with
  | nil => exact ⟨0, rfl⟩
  | cons g gs ih =>
    obtain ⟨a, θ, rfl, -⟩ := h g List.mem_cons_self
    obtain ⟨d, hd⟩ := ih fun g hg => h g (List.mem_cons_of_mem _ hg)
    refine ⟨p.durations.ofAxis a + d, ?_⟩
    rw [Profile.totalDuration, hd]
    rfl

theorem Hardware.Profile.checkQubit_eq_error {e : Error α} (h : p.checkQubit q = .error e) :
    e.isForeignGate = false := by
  unfold checkQubit at h
  split at h <;> cases h
  rfl

/-- The first qubit that does not exist is reported. -/
theorem Hardware.Profile.checkQubits_eq_error_iff {qs : List Qubit} {e : Error α} :
    p.checkQubits qs = .error e ↔
      ∃ q, qs.find? (fun q => !decide (q.index.toNat < p.width)) = some q ∧
        e = .circuit (.qubitOutOfRange q p.width none) := by
  induction qs with
  | nil => simp [checkQubits]
  | cons q qs ih =>
    by_cases hq : q.index.toNat < p.width
    · have hcheck : (p.checkQubit q : Except (Error α) Unit) = .ok () := checkQubit_eq_ok_iff.2 hq
      rw [checkQubits, hcheck, List.find?_cons_of_neg (by simpa using hq), ← ih]
      rfl
    · have hcheck : (p.checkQubit q : Except (Error α) Unit) = .error (.circuit (.qubitOutOfRange q p.width none)) := by
        rw [checkQubit, if_neg hq]
      rw [checkQubits, hcheck, List.find?_cons_of_pos (by simpa using hq)]
      constructor
      · intro h
        cases h
        exact ⟨q, rfl, rfl⟩
      · rintro ⟨r, hr, rfl⟩
        cases hr
        rfl

namespace Sequence

/-! ## The qubit of a sequence -/

/-- Once a qubit has been seen, all gates that follow have to be on it. -/
theorem qubitAfter_some_eq_ok_iff {r : Option Qubit} {gs : List (Gate α)} :
    qubitAfter (some q) gs = .ok r ↔ r = some q ∧ ∀ g ∈ gs, g.qubit? = some q := by
  induction gs with
  | nil => simp [qubitAfter, eq_comm]
  | cons g gs ih =>
    rw [qubitAfter, List.forall_mem_cons]
    cases hg : g.qubit? with
    | none => simp
    | some q' =>
      by_cases hq : q = q'
      · subst hq
        simpa using ih
      · simp [hq, Ne.symm hq]

/-- A sequence has a qubit exactly if all its gates are one-qubit gates on it. -/
theorem qubit_eq_ok_some_iff {gs : List (Gate α)} :
    qubit gs = .ok (some q) ↔ gs ≠ [] ∧ ∀ g ∈ gs, g.qubit? = some q := by
  cases gs with
  | nil => simp [qubit, qubitAfter]
  | cons g gs =>
    rw [qubit, qubitAfter, List.forall_mem_cons, and_iff_right (List.cons_ne_nil g gs)]
    cases hg : g.qubit? with
    | none => simp
    | some q' =>
      dsimp only
      rw [qubitAfter_some_eq_ok_iff, Option.some.injEq, eq_comm, Option.some.injEq]
      refine and_congr_right fun hq => ?_
      rw [hq]

theorem qubit_eq_ok_none_iff {gs : List (Gate α)} : qubit gs = .ok none ↔ gs = [] := by
  cases gs with
  | nil => simp [qubit, qubitAfter]
  | cons g gs =>
    rw [qubit, qubitAfter]
    cases g.qubit? with
    | none => simp
    | some q => simp [qubitAfter_some_eq_ok_iff]

theorem qubitAfter_eq_error {seen : Option Qubit} {gs : List (Gate α)} {e : Error α}
    (h : qubitAfter seen gs = .error e) : e.isNetError = true := by
  fun_induction qubitAfter seen gs with
  | case1 => cases h
  | case2 => cases h; rfl
  | case3 _ _ _ _ ih => exact ih h
  | case4 _ _ _ _ ih => exact ih h
  | case5 => cases h; rfl

/-- Rotations as gates on a qubit. -/
def Turn.gates (q : Qubit) (ts : List (Turn α)) : List (Gate α) := ts.map fun t => .rotation t.axis q t.angle

/-- Reading off the rotations of gates loses nothing. -/
theorem gates_of_turnsOn? {gs : List (Gate α)} {ts : List (Turn α)} (h : turnsOn? q gs = some ts) :
    Turn.gates q ts = gs := by
  fun_induction turnsOn? q gs generalizing ts with
  | case1 =>
    cases h
    rfl
  | case2 a θ gs ih =>
    obtain ⟨us, hus, rfl⟩ := Option.map_eq_some_iff.1 h
    rw [Turn.gates, List.map_cons]
    exact congrArg _ (ih hus)
  | case3 => cases h
  | case4 => cases h

theorem turnsOn?_gates (q : Qubit) (ts : List (Turn α)) : turnsOn? q (Turn.gates q ts) = some ts := by
  induction ts with
  | nil => rfl
  | cons t ts ih =>
    rw [Turn.gates, List.map_cons, turnsOn?, if_pos rfl]
    exact Option.map_eq_some_iff.2 ⟨ts, ih, rfl⟩

end Sequence

variable [Scalar α]

theorem Hardware.Profile.RotationsOn.supports {gs : List (Gate α)} (h : p.RotationsOn q gs) :
    ∀ g ∈ gs, p.supports g = true := by
  intro g hg
  obtain ⟨a, θ, rfl, ha⟩ := h g hg
  exact ha

theorem Hardware.Profile.RotationsOn.of_supports {gs : List (Gate α)} (hs : ∀ g ∈ gs, p.supports g = true)
    (hq : ∀ g ∈ gs, g.qubit? = some q) : p.RotationsOn q gs := by
  intro g hg
  have hsg := hs g hg
  have hqg := hq g hg
  cases g with
  | rotation a r θ =>
    cases hqg
    exact ⟨a, θ, rfl, hsg⟩
  | cx control target => cases hqg
  | general r e => cases hsg

/-! ## Renderings -/

namespace Rendering

theorem turn_eq (axis : Axis) (q : Qubit) (angle : α) :
    turn axis q angle = [] ∨ ∃ θ, turn axis q angle = [.rotation axis q θ] := by
  unfold turn
  dsimp only
  split
  · exact .inl rfl
  · exact .inr ⟨_, rfl⟩

/-- A rotation that is not left out is by the normalized angle, and that is not taken as zero. -/
theorem mem_turn_iff {axis : Axis} {q : Qubit} {angle : α} {g : Gate α} :
    g ∈ turn axis q angle ↔
      Angle.isZero (Angle.normalize angle) = false ∧ g = .rotation axis q (Angle.normalize angle) := by
  unfold turn
  dsimp only
  split <;> simp_all

theorem length_turn_le (axis : Axis) (q : Qubit) (angle : α) : (turn axis q angle).length ≤ 1 := by
  rcases turn_eq axis q angle with h | ⟨θ, h⟩ <;> simp [h]

theorem rotationsOn_turn {axis : Axis} (ha : p.basis.contains axis = true) (q : Qubit) (angle : α) :
    p.RotationsOn q (turn axis q angle) := by
  intro g hg
  rcases turn_eq axis q angle with h | ⟨θ, h⟩
  · rw [h] at hg
    cases hg
  · rw [h, List.mem_singleton] at hg
    exact ⟨axis, θ, hg, ha⟩

/-- Without the middle rotation a rendering is one rotation, with it there is at most one more on each side. -/
theorem sandwich_eq (axis : Axis) (q : Qubit) (first mid last : α) :
    turn axis q mid = [] ∧ sandwich axis q first mid last = turn .z q (first + last) ∨
      turn axis q mid ≠ [] ∧
        sandwich axis q first mid last = turn .z q first ++ turn axis q mid ++ turn .z q last := by
  unfold sandwich
  split
  · rename_i h
    exact .inl ⟨h, rfl⟩
  · rename_i h
    exact .inr ⟨h, rfl⟩

theorem length_sandwich_le (axis : Axis) (q : Qubit) (first mid last : α) :
    (sandwich axis q first mid last).length ≤ 3 := by
  have h₁ := length_turn_le .z q first
  have h₂ := length_turn_le axis q mid
  have h₃ := length_turn_le .z q last
  have h₄ := length_turn_le .z q (first + last)
  rcases sandwich_eq axis q first mid last with ⟨-, h⟩ | ⟨-, h⟩
  · rw [h]
    omega
  · rw [h, List.length_append, List.length_append]
    omega

theorem rotationsOn_sandwich {axis : Axis} (ha : p.basis.contains axis = true) (q : Qubit) (first mid last : α) :
    p.RotationsOn q (sandwich axis q first mid last) := by
  rcases sandwich_eq axis q first mid last with ⟨-, h⟩ | ⟨-, h⟩
  · rw [h]
    exact rotationsOn_turn p.contains_z q _
  · rw [h]
    intro g hg
    rcases List.mem_append.1 hg with hg | hg
    · rcases List.mem_append.1 hg with hg | hg
      · exact rotationsOn_turn p.contains_z q first g hg
      · exact rotationsOn_turn ha q mid g hg
    · exact rotationsOn_turn p.contains_z q last g hg

theorem length_gates_le (r : Rendering) (e : Euler α) (q : Qubit) : (r.gates e q).length ≤ 3 := by
  cases r <;> exact length_sandwich_le ..

theorem rotationsOn_gates {r : Rendering} (hr : p.basis.contains r.middle = true) (e : Euler α) (q : Qubit) :
    p.RotationsOn q (r.gates e q) := by
  cases r with
  | zxz => exact rotationsOn_sandwich hr q _ _ _
  | zyz => exact rotationsOn_sandwich hr q _ _ _

/-- The total duration of a rendering, as a 64-bit word. -/
def cost (p : Profile) (e : Euler α) (q : Qubit) (r : Rendering) : UInt64 :=
  match p.totalDuration (r.gates e q) with
  | .ok d => d
  | .error _ => 0

/-- A rendering that the target runs has a duration. -/
theorem totalDuration_gates {r : Rendering} (hr : p.basis.contains r.middle = true) (e : Euler α) (q : Qubit) :
    p.totalDuration (r.gates e q) = .ok (cost p e q r) := by
  obtain ⟨d, hd⟩ := (rotationsOn_gates hr e q).totalDuration_eq_ok
  rw [cost, hd]

/-- `zxz` if the target runs it and does not run `zyz` at least as fast, else `zyz`. -/
def cheapest (p : Profile) (e : Euler α) (q : Qubit) : Rendering :=
  if p.basis.contains .x = true ∧ (p.basis.contains .y = true → cost p e q zxz < cost p e q zyz) then zxz else zyz

theorem contains_middle_cheapest (p : Profile) (e : Euler α) (q : Qubit) :
    p.basis.contains (cheapest p e q).middle = true := by
  unfold cheapest
  split
  · next h => exact h.1
  · next h =>
    cases hy : p.basis.contains .y with
    | true => exact hy
    | false =>
      have hx := p.contains_x_or_contains_y.resolve_right (by simp [hy])
      exact absurd ⟨hx, by simp [hy]⟩ h

theorem select_eq_cheapest (p : Profile) (e : Euler α) (q : Qubit) :
    select p e q = .ok (cheapest p e q, (cheapest p e q).gates e q) := by
  unfold select cheapest
  cases hx : p.basis.contains .x with
  | false =>
    have hy := p.contains_x_or_contains_y.resolve_left (by simp [hx])
    simp [hy]
  | true =>
    cases hy : p.basis.contains .y with
    | false => simp
    | true =>
      have hdx := totalDuration_gates (r := zxz) hx e q
      have hdy := totalDuration_gates (r := zyz) hy e q
      simp only [hdx, hdy, bind, Except.bind]
      by_cases hlt : cost p e q zxz < cost p e q zyz
      · rw [if_pos hlt, if_pos ⟨trivial, fun _ => hlt⟩]
        rfl
      · rw [if_neg hlt, if_neg fun h => hlt (h.2 trivial)]
        rfl

/-- A rendering is always found, and its middle rotation is native. -/
theorem select_eq_ok (p : Profile) (e : Euler α) (q : Qubit) :
    ∃ r, p.basis.contains r.middle = true ∧ select p e q = .ok (r, r.gates e q) :=
  ⟨cheapest p e q, contains_middle_cheapest p e q, select_eq_cheapest p e q⟩

end Rendering

/-! ## Peephole simplification never lengthens -/

namespace Sequence.Turn

theorem length_single_le (t : Turn α) : (single t).length ≤ 1 := by
  unfold single
  split <;> simp

theorem length_of_merge? {s t : Turn α} {ts : List (Turn α)} (h : merge? s t = some ts) : ts.length ≤ 1 := by
  unfold merge? at h
  split at h
  · rw [← Option.some.inj h]
    exact length_single_le _
  · cases h

theorem length_short_le (ts : List (Turn α)) : (short ts).length ≤ ts.length := by
  unfold short
  split
  · exact length_single_le _
  · rename_i s t
    unfold pair
    cases h : merge? s t with
    | none => simp
    | some merged =>
      have := length_of_merge? h
      simp only [Option.getD_some, List.length_cons, List.length_nil]
      omega
  · exact Nat.le_refl _

theorem length_triple_le (s t u : Turn α) : (triple s t u).length ≤ 3 := by
  unfold triple
  split
  · rename_i merged h
    have h₁ := length_of_merge? h
    have h₂ := length_short_le (merged ++ [u])
    rw [List.length_append, List.length_singleton] at h₂
    omega
  · split
    · rename_i merged h
      have h₁ := length_of_merge? h
      have h₂ := length_short_le (s :: merged)
      rw [List.length_cons] at h₂
      omega
    · split
      · rename_i v _
        have := length_single_le v
        omega
      · simp

theorem length_simplify_le (ts : List (Turn α)) : (simplify ts).length ≤ ts.length := by
  unfold simplify
  split
  · exact length_triple_le ..
  · exact length_short_le _

end Sequence.Turn

namespace Sequence

/-- The simplifier leaves gates as they are or makes them rotations of the qubit of the first gate. -/
theorem peephole_cases (gs : List (Gate α)) :
    peephole gs = gs ∨ ∃ q ts, gs = Turn.gates q ts ∧ ts ≠ [] ∧ peephole gs = Turn.gates q (Turn.simplify ts) := by
  unfold peephole
  split
  · exact .inl rfl
  · rename_i q hq
    split
    · exact .inl rfl
    · rename_i ts hts
      refine .inr ⟨q, ts, (gates_of_turnsOn? hts).symm, ?_, rfl⟩
      rintro rfl
      rw [← gates_of_turnsOn? hts] at hq
      cases hq

theorem peephole_gates (q : Qubit) (ts : List (Turn α)) :
    peephole (Turn.gates q ts) = Turn.gates q (Turn.simplify ts) := by
  cases ts with
  | nil => rfl
  | cons t ts =>
    have hread := turnsOn?_gates q (t :: ts)
    have hhead : (Turn.gates q (t :: ts)).head?.bind Gate.qubit? = some q := rfl
    simp only [peephole, hhead, hread]
    rfl

theorem length_peephole_le (gs : List (Gate α)) : (peephole gs).length ≤ gs.length := by
  rcases peephole_cases gs with h | ⟨q, ts, hgs, -, h⟩
  · exact Nat.le_of_eq (congrArg List.length h)
  · rw [h, hgs, Turn.gates, Turn.gates, List.length_map, List.length_map]
    exact Turn.length_simplify_le ts

theorem qubit?_of_mem_peephole {gs : List (Gate α)} (h : ∀ g ∈ gs, g.qubit? = some q) :
    ∀ g ∈ peephole gs, g.qubit? = some q := by
  rcases peephole_cases gs with hp | ⟨r, ts, rfl, hne, hp⟩
  · rw [hp]
    exact h
  · obtain ⟨t, ts, rfl⟩ := List.exists_cons_of_ne_nil hne
    have hr : some r = some q := h (.rotation t.axis r t.angle) List.mem_cons_self
    rw [hp]
    intro g hg
    obtain ⟨u, -, rfl⟩ := List.mem_map.1 hg
    exact hr

/-! ## Optimized sequences -/

/-- A synthesized sequence is a rendering that the target runs. -/
theorem exists_rendering_of_synthesize {gs out : List (Gate α)} (h : synthesize p q gs = .ok out) :
    ∃ (r : Rendering) (e : Euler α), p.basis.contains r.middle = true ∧ out = r.gates e q := by
  simp only [synthesize, bind_eq_ok] at h
  obtain ⟨u, -, e, -, b, hb, hout⟩ := h
  obtain ⟨r, hr, hsel⟩ := Rendering.select_eq_ok p e q
  rw [hsel] at hb
  cases hb
  cases hout
  exact ⟨r, e, hr, rfl⟩

theorem synthesize_shape {gs out : List (Gate α)} (h : synthesize p q gs = .ok out) :
    p.RotationsOn q out ∧ out.length ≤ 3 := by
  obtain ⟨r, e, hr, rfl⟩ := exists_rendering_of_synthesize h
  exact ⟨Rendering.rotationsOn_gates hr e q, Rendering.length_gates_le r e q⟩

/-- The simplified sequence is taken if it is native, unless the synthesized one is shorter and it is not shorter itself. -/
theorem choose_cases {gs out : List (Gate α)} (h : choose p q gs = .ok out) :
    out = peephole gs ∧ p.supportsAll (peephole gs) = true ∨
      synthesize p q gs = .ok out ∧ (p.supportsAll (peephole gs) = true →
        out.length < (peephole gs).length ∧ gs.length ≤ (peephole gs).length) := by
  unfold choose at h
  dsimp only at h
  split at h
  · rename_i hc
    cases h
    exact .inl ⟨rfl, (Bool.and_eq_true_iff.1 hc).2⟩
  · rename_i hlong
    obtain ⟨made, hmade, h⟩ := bind_eq_ok.1 h
    split at h
    · rename_i hc
      cases h
      exact .inl ⟨rfl, (Bool.and_eq_true_iff.1 hc).1⟩
    · rename_i hshort
      cases h
      refine .inr ⟨hmade, fun hnative => ?_⟩
      simp only [hnative, Bool.and_true, Bool.true_and, decide_eq_true_eq] at hlong hshort
      omega

theorem choose_shape {gs out : List (Gate α)} (hq : ∀ g ∈ gs, g.qubit? = some q) (hlen : gs.length ≤ window)
    (h : choose p q gs = .ok out) : p.RotationsOn q out ∧ out.length ≤ 3 := by
  rcases choose_cases h with ⟨rfl, hall⟩ | ⟨hmade, -⟩
  · rw [Profile.supportsAll, List.all_eq_true] at hall
    exact ⟨.of_supports hall (qubit?_of_mem_peephole hq), Nat.le_trans (length_peephole_le gs) hlen⟩
  · exact synthesize_shape hmade

/-- Nothing stays nothing; other gates are valid gates on one qubit of the target, and long sequences are synthesized. -/
theorem optimize_cases {gs out : List (Gate α)} (h : optimize p gs = .ok out) :
    gs = [] ∧ out = [] ∨
      ∃ q, (gs ≠ [] ∧ ∀ g ∈ gs, g.qubit? = some q ∧ g.Fits p.width) ∧
        (window < gs.length ∧ synthesize p q gs = .ok out ∨ gs.length ≤ window ∧ choose p q gs = .ok out) := by
  unfold optimize at h
  obtain ⟨r, hr, h⟩ := bind_eq_ok.1 h
  cases r with
  | none =>
    cases h
    exact .inl ⟨qubit_eq_ok_none_iff.1 hr, rfl⟩
  | some q =>
    obtain ⟨hne, hq⟩ := qubit_eq_ok_some_iff.1 hr
    obtain ⟨hwidth, h⟩ := check_bind_eq_ok.1 h
    obtain ⟨hvalid, h⟩ := check_bind_eq_ok.1 h
    refine .inr ⟨q, ⟨hne, fun g hg => ⟨hq g hg, validateAll_eq_ok_iff.1 hvalid g hg, ?_⟩⟩, ?_⟩
    · rw [Gate.qubits_of_qubit? (hq g hg)]
      simpa using Hardware.Profile.checkQubit_eq_ok_iff.1 hwidth
    · split at h
      · exact .inl ⟨‹_›, h⟩
      · exact .inr ⟨Nat.le_of_not_lt ‹_›, h⟩

/-- **The shape of an optimized sequence.** Nothing stays nothing; other gates were valid gates on one qubit of the target
and become at most three native rotations of this qubit. -/
theorem optimize_shape {gs out : List (Gate α)} (h : optimize p gs = .ok out) :
    gs = [] ∧ out = [] ∨
      ∃ q, (∀ g ∈ gs, g.qubit? = some q ∧ g.Fits p.width) ∧ p.RotationsOn q out ∧ out.length ≤ 3 := by
  rcases optimize_cases h with hnil | ⟨q, ⟨-, hgs⟩, ⟨-, hmade⟩ | ⟨hlen, hchosen⟩⟩
  · exact .inl hnil
  · exact .inr ⟨q, hgs, synthesize_shape hmade⟩
  · exact .inr ⟨q, hgs, choose_shape (fun g hg => (hgs g hg).1) hlen hchosen⟩

theorem optimize_nil (p : Profile) : optimize p ([] : List (Gate α)) = .ok [] := rfl

theorem length_optimize_le {gs out : List (Gate α)} (h : optimize p gs = .ok out) : out.length ≤ 3 := by
  rcases optimize_shape h with ⟨-, rfl⟩ | ⟨q, -, -, hlen⟩
  · simp
  · exact hlen

/-- An optimized sequence stays on the qubit of its gates. -/
theorem rotationsOn_optimize {gs out : List (Gate α)} (h : optimize p gs = .ok out)
    (hq : ∀ g ∈ gs, g.qubit? = some q) : p.RotationsOn q out := by
  rcases optimize_shape h with ⟨-, rfl⟩ | ⟨r, hr, hout, -⟩
  · intro g hg
    cases hg
  · cases gs with
    | nil =>
      cases h
      intro g hg
      cases hg
    | cons g gs =>
      have hg := hq g List.mem_cons_self
      rw [(hr g List.mem_cons_self).1] at hg
      cases hg
      exact hout

/-! ## Why optimizing a sequence fails -/

theorem stripPhase_eq_error {u : Operator α} {e : Error α} (h : stripPhase u = .error e) : e.isNetError = true := by
  unfold stripPhase at h
  dsimp only at h
  split at h <;> cases h
  rfl

theorem product_eq_error {u : Operator α} {gs : List (Gate α)} {e : Error α} (h : product u gs = .error e) :
    e.isNetError = true := by
  fun_induction product u gs with
  | case1 => cases h
  | case2 _ _ _ _ _ ih => exact ih h
  | case3 => cases h; rfl

theorem operator_eq_error {gs : List (Gate α)} {e : Error α} (h : operator gs = .error e) :
    e.isNetError = true := by
  rcases bind_eq_error.1 h with h | ⟨_, -, h⟩
  · exact qubitAfter_eq_error h
  · rcases bind_eq_error.1 h with h | ⟨_, -, h⟩
    · exact product_eq_error h
    · exact stripPhase_eq_error h

theorem ofOperator_eq_error {u : Operator α} {e : Error α} (h : Euler.ofOperator u = .error e) :
    e.isNetError = true := by
  rcases bind_eq_error.1 h with h | ⟨v, -, h⟩
  · exact stripPhase_eq_error h
  · split at h <;> cases h

theorem synthesize_eq_error {gs : List (Gate α)} {e : Error α} (h : synthesize p q gs = .error e) :
    e.isNetError = true := by
  unfold synthesize at h
  rcases bind_eq_error.1 h with h | ⟨u, -, h⟩
  · exact operator_eq_error h
  · rcases bind_eq_error.1 h with h | ⟨angles, -, h⟩
    · exact ofOperator_eq_error h
    · obtain ⟨r, -, hsel⟩ := Rendering.select_eq_ok p angles q
      rw [hsel] at h
      cases h

theorem validateAll_eq_error {gs : List (Gate α)} {e : Error α} (h : validateAll gs = .error e) :
    e.isForeignGate = false := by
  fun_induction validateAll gs with
  | case1 => cases h
  | case2 _ _ _ _ ih => exact ih h
  | case3 => cases h; rfl

/-- A sequence cannot be optimized if it is none, is on no qubit of the target, holds a gate that is not valid, or has a net
operator without Euler angles. -/
theorem optimize_error_cases {gs : List (Gate α)} {e : Error α} (h : optimize p gs = .error e) :
    e.isNetError = true ∨ (∃ q, p.checkQubit q = .error e) ∨ validateAll gs = .error e := by
  unfold optimize at h
  rcases bind_eq_error.1 h with h | ⟨r, -, h⟩
  · exact .inl (qubitAfter_eq_error h)
  cases r with
  | none => cases h
  | some q =>
    rcases bind_eq_error.1 h with h | ⟨_, -, h⟩
    · exact .inr (.inl ⟨q, h⟩)
    rcases bind_eq_error.1 h with h | ⟨_, -, h⟩
    · exact .inr (.inr h)
    refine .inl ?_
    split at h
    · exact synthesize_eq_error h
    · unfold choose at h
      dsimp only at h
      split at h
      · cases h
      · rcases bind_eq_error.1 h with h | ⟨_, -, h⟩
        · exact synthesize_eq_error h
        · split at h <;> cases h

theorem optimize_eq_error {gs : List (Gate α)} {e : Error α} (h : optimize p gs = .error e) :
    e.isForeignGate = false := by
  rcases optimize_error_cases h with h | ⟨q, h⟩ | h
  · exact Error.isForeignGate_of_isNetError h
  · exact Hardware.Profile.checkQubit_eq_error h
  · exact validateAll_eq_error h

end Sequence

end RotationCircuits
