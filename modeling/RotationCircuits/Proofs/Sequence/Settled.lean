import RotationCircuits.Proofs.Length

/-!
# Settled windows

A window is settled if no rule of the simplifier applies to it: neighbours turn around different axes, a lone rotation is
not by zero, and three rotations match none of the identities. Simplifying leaves settled windows alone
(`Turn.simplify_of_settled`) and makes a settled window of every window of at most three rotations
(`Turn.settled_simplify`), whichever way the tests on angles turn out. So simplifying again changes nothing
(`Turn.simplify_simplify`).
-/

namespace RotationCircuits.Sequence

variable {α : Type}

/-! ## Gates as rotations -/

/-- The rotations among gates. -/
def turns (gs : List (Gate α)) : List (Turn α) :=
  gs.filterMap fun
    | .rotation a _ θ => some ⟨a, θ⟩
    | _ => none

theorem turns_gates (q : Qubit) (ts : List (Turn α)) : turns (Turn.gates q ts) = ts := by
  rw [turns, Turn.gates, List.filterMap_map]
  exact List.filterMap_some

theorem gates_turns {p : Hardware.Profile} {q : Qubit} {gs : List (Gate α)} (h : p.RotationsOn q gs) :
    Turn.gates q (turns gs) = gs := by
  induction gs with
  | nil => rfl
  | cons g gs ih =>
    obtain ⟨a, θ, rfl, -⟩ := h g List.mem_cons_self
    exact congrArg _ (ih fun g hg => h g (List.mem_cons_of_mem _ hg))

theorem Turn.gates_injective {q : Qubit} {ts us : List (Turn α)} (h : gates q ts = gates q us) : ts = us := by
  rw [← turns_gates q ts, h, turns_gates]

variable [Scalar α]

namespace Turn

/-- Two half turns around a rotation about another axis, or two quarter turns around a half turn about another axis. -/
def IsConjugation (s t u : Turn α) : Prop :=
  s.axis = u.axis ∧ t.axis ≠ s.axis ∧
    (Angle.isNear s.angle 180.0 = true ∧ Angle.isNear u.angle 180.0 = true ∨
      Angle.isNear s.angle 90.0 = true ∧ Angle.isNear t.angle 180.0 = true ∧ Angle.isNear u.angle 90.0 = true)

/-- No rule of the simplifier applies. -/
structure Settled (ts : List (Turn α)) : Prop where
  alternating : ts.IsChain fun s t => s.axis ≠ t.axis
  nonzero : ∀ t, ts = [t] → Angle.isZero t.angle = false
  unconjugated : ∀ s t u, ts = [s, t, u] → ¬ IsConjugation s t u

/-! ## The rules of the simplifier -/

theorem pair_of_axis_eq {s t : Turn α} (h : s.axis = t.axis) : pair s t = single ⟨s.axis, s.angle + t.angle⟩ := by
  simp [pair, merge?, h]

theorem pair_of_axis_ne {s t : Turn α} (h : s.axis ≠ t.axis) : pair s t = [s, t] := by
  simp [pair, merge?, h]

/-- Three rotations of which the first two are merged. -/
theorem triple_front {s t : Turn α} (h : s.axis = t.axis) (u : Turn α) :
    triple s t u = if Angle.isZero (s.angle + t.angle) then single u else pair ⟨s.axis, s.angle + t.angle⟩ u := by
  simp only [triple, merge?, if_pos h, single]
  split <;> rfl

/-- Three rotations of which only the last two are merged; what they give does not meet the first. -/
theorem triple_back {s t u : Turn α} (h : s.axis ≠ t.axis) (h' : t.axis = u.axis) :
    triple s t u = if Angle.isZero (t.angle + u.angle) then single s else [s, ⟨t.axis, t.angle + u.angle⟩] := by
  simp only [triple, merge?, if_neg h, if_pos h', single]
  split
  · rfl
  · simp [short, pair, merge?, h]

/-- The identities apply to conjugations, and leave the middle rotation or its inverse. -/
theorem identity?_cases (s t u : Turn α) :
    identity? s t u = none ∧ ¬ IsConjugation s t u ∨
      IsConjugation s t u ∧ (identity? s t u = some ⟨t.axis, -t.angle⟩ ∨ identity? s t u = some t) := by
  unfold identity? IsConjugation
  grind

/-- Three rotations none of which are merged. -/
theorem triple_apart {s t u : Turn α} (h : s.axis ≠ t.axis) (h' : t.axis ≠ u.axis) :
    triple s t u = [s, t, u] ∧ ¬ IsConjugation s t u ∨
      IsConjugation s t u ∧ (triple s t u = single ⟨t.axis, -t.angle⟩ ∨ triple s t u = single t) := by
  simp only [triple, merge?, if_neg h, if_neg h']
  rcases identity?_cases s t u with ⟨hid, hconj⟩ | ⟨hconj, hid | hid⟩ <;> rw [hid]
  · exact .inl ⟨rfl, hconj⟩
  · exact .inr ⟨hconj, .inl rfl⟩
  · exact .inr ⟨hconj, .inr rfl⟩

/-! ## Settled windows stay -/

theorem settled_nil : Settled ([] : List (Turn α)) := ⟨by simp, by simp, by simp⟩

theorem settled_singleton_iff {t : Turn α} : Settled [t] ↔ Angle.isZero t.angle = false := by
  constructor
  · intro h
    exact h.nonzero t rfl
  · intro h
    exact ⟨by simp, by simpa using h, by simp⟩

theorem settled_pair_iff {s t : Turn α} : Settled [s, t] ↔ s.axis ≠ t.axis := by
  constructor
  · intro h
    simpa using h.alternating
  · intro h
    exact ⟨by simpa using h, by simp, by simp⟩

theorem settled_triple_iff {s t u : Turn α} :
    Settled [s, t, u] ↔ s.axis ≠ t.axis ∧ t.axis ≠ u.axis ∧ ¬ IsConjugation s t u := by
  constructor
  · intro h
    obtain ⟨hst, htu⟩ : s.axis ≠ t.axis ∧ t.axis ≠ u.axis := by simpa using h.alternating
    exact ⟨hst, htu, h.unconjugated s t u rfl⟩
  · rintro ⟨hst, htu, hid⟩
    exact ⟨by simpa using ⟨hst, htu⟩, by simp, by simpa using hid⟩

/-- Settled windows are left as they are. -/
theorem simplify_of_settled {ts : List (Turn α)} (h : Settled ts) : simplify ts = ts := by
  match ts, h with
  | [], _ => rfl
  | [t], h => simp [simplify, short, single, settled_singleton_iff.1 h]
  | [s, t], h => exact pair_of_axis_ne (settled_pair_iff.1 h)
  | [s, t, u], h =>
    obtain ⟨hst, htu, hconj⟩ := settled_triple_iff.1 h
    rcases triple_apart hst htu with ⟨h, -⟩ | ⟨h, -⟩
    · exact h
    · exact absurd h hconj
  | _ :: _ :: _ :: _ :: _, _ => rfl

/-! ## Windows become settled -/

theorem settled_single (t : Turn α) : Settled (single t) := by
  unfold single
  split
  · exact settled_nil
  · next h => exact settled_singleton_iff.2 (by simpa using h)

theorem settled_pair (s t : Turn α) : Settled (pair s t) := by
  by_cases h : s.axis = t.axis
  · rw [pair_of_axis_eq h]
    exact settled_single _
  · rw [pair_of_axis_ne h]
    exact settled_pair_iff.2 h

theorem settled_triple (s t u : Turn α) : Settled (triple s t u) := by
  by_cases hst : s.axis = t.axis
  · rw [triple_front hst]
    split
    · exact settled_single u
    · exact settled_pair _ u
  by_cases htu : t.axis = u.axis
  · rw [triple_back hst htu]
    split
    · exact settled_single s
    · exact settled_pair_iff.2 hst
  rcases triple_apart hst htu with ⟨h, hconj⟩ | ⟨-, h | h⟩ <;> rw [h]
  · exact settled_triple_iff.2 ⟨hst, htu, hconj⟩
  · exact settled_single _
  · exact settled_single t

theorem simplify_of_three_lt {ts : List (Turn α)} (hlen : 3 < ts.length) : simplify ts = ts := by
  match ts, hlen with
  | _ :: _ :: _ :: _ :: _, _ => rfl

theorem settled_simplify {ts : List (Turn α)} (hlen : ts.length ≤ 3) : Settled (simplify ts) := by
  match ts, hlen with
  | [], _ => exact settled_nil
  | [t], _ => exact settled_single t
  | [s, t], _ => exact settled_pair s t
  | [s, t, u], _ => exact settled_triple s t u

/-- **A simplified window is final.** -/
theorem simplify_simplify (ts : List (Turn α)) : simplify (simplify ts) = simplify ts := by
  by_cases hlen : ts.length ≤ 3
  · exact simplify_of_settled (settled_simplify hlen)
  · have hlong : simplify ts = ts := simplify_of_three_lt (by omega)
    rw [hlong, hlong]

/-! ## Windows that are not settled shrink -/

theorem single_eq_or_length_lt (t : Turn α) : single t = [t] ∨ (single t).length < 1 := by
  unfold single
  split <;> simp

theorem pair_eq_or_length_lt (s t : Turn α) : pair s t = [s, t] ∨ (pair s t).length < 2 := by
  by_cases h : s.axis = t.axis
  · rw [pair_of_axis_eq h]
    exact .inr (Nat.lt_succ_of_le (length_single_le _))
  · exact .inl (pair_of_axis_ne h)

theorem triple_eq_or_length_lt (s t u : Turn α) : triple s t u = [s, t, u] ∨ (triple s t u).length < 3 := by
  have hsingle (v : Turn α) : (single v).length < 3 := Nat.lt_of_le_of_lt (length_single_le v) (by decide)
  by_cases hst : s.axis = t.axis
  · refine .inr ?_
    rw [triple_front hst]
    split
    · exact hsingle u
    · exact Nat.lt_succ_of_le (length_short_le [_, u])
  by_cases htu : t.axis = u.axis
  · refine .inr ?_
    rw [triple_back hst htu]
    split
    · exact hsingle s
    · exact Nat.lt_succ_self 2
  rcases triple_apart hst htu with ⟨h, -⟩ | ⟨-, h | h⟩
  · exact .inl h
  · exact .inr (h ▸ hsingle _)
  · exact .inr (h ▸ hsingle t)

/-- Every rule that applies makes the window shorter. -/
theorem simplify_eq_or_length_lt (ts : List (Turn α)) : simplify ts = ts ∨ (simplify ts).length < ts.length := by
  match ts with
  | [] => exact .inl rfl
  | [t] => exact single_eq_or_length_lt t
  | [s, t] => exact pair_eq_or_length_lt s t
  | [s, t, u] => exact triple_eq_or_length_lt s t u
  | _ :: _ :: _ :: _ :: _ => exact .inl rfl

end Turn

/-! ## Lists of gates -/

theorem peephole_peephole (gs : List (Gate α)) : peephole (peephole gs) = peephole gs := by
  rcases peephole_cases gs with h | ⟨q, ts, -, -, h⟩
  · rw [h, h]
  · rw [h, peephole_gates, Turn.simplify_simplify]

/-- Gates that are simplified are rotations of one qubit, and fewer rotations of this qubit around some of their axes are
left. -/
theorem peephole_eq_or_shorter (gs : List (Gate α)) :
    peephole gs = gs ∨
      (peephole gs).length < gs.length ∧ ∃ q, (∀ g ∈ gs, g.qubit? = some q) ∧
        ∀ g ∈ peephole gs, ∃ a θ, g = .rotation a q θ ∧ ∃ g' ∈ gs, g'.axis? = some a := by
  rcases peephole_cases gs with h | ⟨q, ts, rfl, -, h⟩
  · exact .inl h
  · rw [h]
    rcases Turn.simplify_eq_or_length_lt ts with hsame | hshort
    · exact .inl (by rw [hsame])
    · refine .inr ⟨by simpa [Turn.gates] using hshort, q, by simp [Turn.gates, Gate.qubit?], ?_⟩
      intro g hg
      obtain ⟨u, hu, rfl⟩ := List.mem_map.1 hg
      obtain ⟨t, ht, haxis⟩ := Turn.axesIn_simplify ts u hu
      exact ⟨u.axis, u.angle, rfl, _, List.mem_map.2 ⟨t, ht, rfl⟩, by rw [Gate.axis?, haxis]⟩

/-- **The simplifier shrinks gates or keeps them, and its result is final.** Gates are left as they are, or they are
rotations of one qubit and become fewer rotations of it around axes that they have. Simplifying again changes nothing. A
window of at most three rotations becomes settled, and it is left alone only if it was. -/
theorem peephole_settles_window (gs : List (Gate α)) :
    (peephole gs = gs ∨
      (peephole gs).length < gs.length ∧ ∃ q, (∀ g ∈ gs, g.qubit? = some q) ∧
        ∀ g ∈ peephole gs, ∃ a θ, g = .rotation a q θ ∧ ∃ g' ∈ gs, g'.axis? = some a) ∧
      peephole (peephole gs) = peephole gs ∧
      ∀ q ts, gs = Turn.gates q ts → ts.length ≤ 3 →
        (∃ us, peephole gs = Turn.gates q us ∧ Turn.Settled us) ∧ (peephole gs = gs ↔ Turn.Settled ts) := by
  refine ⟨peephole_eq_or_shorter gs, peephole_peephole gs, ?_⟩
  rintro q ts rfl hlen
  have hsettled := Turn.settled_simplify hlen
  rw [peephole_gates]
  refine ⟨⟨Turn.simplify ts, rfl, hsettled⟩, fun hsame => ?_, fun h => by rw [Turn.simplify_of_settled h]⟩
  rw [Turn.gates_injective hsame] at hsettled
  exact hsettled

/-- A full turn in two parts, in front of a rotation about another axis. -/
def cancelling : List (Turn Float) := [⟨.x, 90.0⟩, ⟨.x, 270.0⟩, ⟨.y, 30.0⟩]

/-- An angle that is not a number is neither zero nor near to another. -/
def indefinite : List (Turn Float) := [⟨.z, 180.0⟩, ⟨.x, Binary64.nan⟩, ⟨.x, 90.0⟩]

theorem peephole_settles_window_cancelling :
    (cancelling.length ≤ 3 ∧ peephole (Turn.gates ⟨0⟩ cancelling) = [.rotation .y ⟨0⟩ 30.0] ∧
        (∃ us, peephole (Turn.gates ⟨0⟩ cancelling) = Turn.gates ⟨0⟩ us ∧ Turn.Settled us) ∧
        (peephole (Turn.gates ⟨0⟩ cancelling) = Turn.gates ⟨0⟩ cancelling ↔ Turn.Settled cancelling)) ∧
      indefinite.length ≤ 3 ∧
        peephole (Turn.gates ⟨1⟩ indefinite) = [.rotation .z ⟨1⟩ 180.0, .rotation .x ⟨1⟩ Binary64.nan] ∧
        (∃ us, peephole (Turn.gates ⟨1⟩ indefinite) = Turn.gates ⟨1⟩ us ∧ Turn.Settled us) ∧
        (peephole (Turn.gates ⟨1⟩ indefinite) = Turn.gates ⟨1⟩ indefinite ↔ Turn.Settled indefinite) := by
  have hcancelling : cancelling.length ≤ 3 := by decide
  have hindefinite : indefinite.length ≤ 3 := by decide
  exact ⟨⟨hcancelling, by decide +kernel, (peephole_settles_window _).2.2 ⟨0⟩ cancelling rfl hcancelling⟩,
    hindefinite, by decide +kernel, (peephole_settles_window _).2.2 ⟨1⟩ indefinite rfl hindefinite⟩

end RotationCircuits.Sequence
