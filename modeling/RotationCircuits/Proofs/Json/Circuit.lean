import RotationCircuits.Json.Circuit
import RotationCircuits.Proofs.Decimal.ReadBack
import RotationCircuits.Proofs.Invariant
import RotationCircuits.Proofs.Json.Record

/-!
# Circuits in JSON

Gates with finite angles and well-formed circuits come back from their JSON text as they were, with the same bits in every
angle (`json_round_trip`). This rests on the assumption that the JSON library rounds correctly: a number is read as the
double nearest to it, which is what `Decimal.toFloat` does. Under it, `Decimal.toFloat_shortest` says that the decimal
written for an angle reads back.
-/

namespace RotationCircuits

open Json (Value)

/-! ## Angles -/

theorem Decimal.isNormal_shortest (tie : Tie) (x : Float) : (shortest tie x).IsNormal := by
  unfold shortest
  split
  · exact isNormal_normalize _
  · exact fun _ => rfl

/-- The sign is written apart from the magnitude, so `-0.0` keeps it. -/
theorem Json.Value.Encodes.ofFloat {x : Float} (hx : x.isFinite = true) : (Value.ofFloat x).Encodes Value.float? x := by
  rw [Value.ofFloat, if_pos hx]
  refine ⟨Value.readsBack_number (Decimal.isNormal_shortest .even x), ?_⟩
  rw [Value.float?, Value.finite?, Decimal.toFloat_shortest .even hx, if_pos (Binary64.isFinite_abs hx)]
  cases hsign : Binary64.isNegative x with
  | false => simp [Binary64.abs_of_not_isNegative hsign]
  | true => simp [Binary64.neg_abs_of_isNegative hsign]

/-! ## Gates -/

theorem Qubit.encodes_toJson (q : Qubit) : q.toJson.Encodes Qubit.ofJson? q := by
  have hcode := (Value.Encodes.ofNat q.index.toNat_lt_size).map fun n => (⟨.ofNat n⟩ : Qubit)
  rw [UInt32.ofNat_toNat] at hcode
  exact hcode

namespace Gate

theorem encodes_general {q : Qubit} {e : Euler Float} (h : ∀ a ∈ (general q e).angles, a.isFinite = true) :
    (Value.ofMembers [("qubit", q.toJson), ("theta", .ofFloat e.theta), ("phi", .ofFloat e.phi),
      ("lambda", .ofFloat e.lambda)]).Encodes generalOfJson? (general q e) := by
  have hq := q.encodes_toJson
  have hθ := Value.Encodes.ofFloat (h e.theta (by simp [angles]))
  have hφ := Value.Encodes.ofFloat (h e.phi (by simp [angles]))
  have hl := Value.Encodes.ofFloat (h e.lambda (by simp [angles]))
  let values := [some q.toJson, some (.ofFloat e.theta), some (.ofFloat e.phi), some (.ofFloat e.lambda)]
  change (Value.object (Json.Record.given generalFields.fields values)).Encodes _ _
  refine ⟨Json.Record.readsBack_given ?_, ?_⟩
  · simpa [values] using ⟨hq.readsBack, hθ.readsBack, hφ.readsBack, hl.readsBack⟩
  · rw [generalOfJson?, Json.Record.read?_given (by decide) rfl]
    simp [values, hq.decoded, hθ.decoded, hφ.decoded, hl.decoded]

/-- What a kind of gate writes is read by the same kind. -/
theorem encodes_variant {key : String} {content : Value} {decode : Value → Option (Gate Float)} {g : Gate Float}
    (h : content.Encodes decode g) (hkey : ofJson? (.ofMembers [(key, content)]) = decode content) :
    (Value.ofMembers [(key, content)]).Encodes ofJson? g := by
  refine ⟨Value.readsBack_object ?_, hkey.trans h.decoded⟩
  simpa using h.readsBack

theorem encodes_toJson {g : Gate Float} (h : ∀ a ∈ g.angles, a.isFinite = true) : g.toJson.Encodes Gate.ofJson? g := by
  cases g with
  | rotation a q θ =>
    have hq := q.encodes_toJson
    have hθ := Value.Encodes.ofFloat (h θ (by simp [angles]))
    have hcontent : (Value.array [q.toJson, .ofFloat θ]).Encodes (rotationOfJson? a) (rotation a q θ) := by
      refine ⟨Value.readsBack_array ?_, ?_⟩
      · simpa using ⟨hq.readsBack, hθ.readsBack⟩
      · simp [rotationOfJson?, hq.decoded, hθ.decoded]
    refine encodes_variant hcontent ?_
    cases a <;> rfl
  | cx c t =>
    have hc := c.encodes_toJson
    have ht := t.encodes_toJson
    have hcontent : (Value.array [c.toJson, t.toJson]).Encodes cxOfJson? (cx c t) := by
      refine ⟨Value.readsBack_array ?_, ?_⟩
      · simpa using ⟨hc.readsBack, ht.readsBack⟩
      · simp [cxOfJson?, hc.decoded, ht.decoded]
    exact encodes_variant hcontent rfl
  | general q e => exact encodes_variant (encodes_general h) rfl

end Gate

/-! ## Circuits -/

/-- A circuit comes back if its width has 32 bits and its angles are finite, well formed or not. -/
theorem Circuit.encodes_toJson {c : Circuit Float} (hwidth : c.width < UInt32.size)
    (h : ∀ g ∈ c.gates, ∀ a ∈ g.angles, a.isFinite = true) : c.toJson.Encodes Circuit.ofJson? c := by
  have hw := Value.Encodes.ofNat hwidth
  have hgates : ∀ g ∈ c.gates, g.toJson.Encodes Gate.ofJson? g := fun g hg => Gate.encodes_toJson (h g hg)
  let values := [some (Value.ofNat c.width), some (.array (c.gates.map Gate.toJson))]
  change (Value.object (Json.Record.given fields.fields values)).Encodes _ _
  refine ⟨Json.Record.readsBack_given ?_, ?_⟩
  · simpa [values] using ⟨hw.readsBack, (Value.Encodes.array hgates).readsBack⟩
  · rw [ofJson?, Json.Record.read?_given (by decide) rfl]
    simp [values, hw.decoded, Value.items?, Value.Encodes.mapM_decode hgates]

/-- **Gates and circuits come back from their JSON text.** Every gate whose angles are finite is read back as it was, on any
qubits, and so is every well-formed circuit. -/
theorem json_round_trip :
    (∀ g : Gate Float, (∀ a ∈ g.angles, a.isFinite = true) → (Json.read? g.toJson.write).bind Gate.ofJson? = some g) ∧
    ∀ c : Circuit Float, c.WellFormed → Circuit.ofJsonText? c.toJsonText = some c := by
  refine ⟨fun g hg => (Gate.encodes_toJson hg).bind_read?, fun c hc => ?_⟩
  have hwidth : c.width < UInt32.size := by
    rcases hc.1 with h | h <;> rw [h] <;> decide
  exact (Circuit.encodes_toJson hwidth fun g hg => Gate.isFinite_of_validate (hc.2 g hg).1).bind_read?

/-- A general gate on the last qubit there is, with a negative zero, the least positive double and the greatest one. -/
def extremeGate : Gate Float := .general ⟨4294967295⟩ ⟨-0.0, 5e-324, 1.7976931348623157e308⟩

/-- A circuit of two qubits with a gate of every kind. -/
def everyKind : Circuit Float :=
  ⟨2, [.rotation .x ⟨0⟩ 0.1, .rotation .y ⟨1⟩ (-0.0), .rotation .z ⟨0⟩ 1e16, .cx ⟨1⟩ ⟨0⟩, .general ⟨1⟩ ⟨90.0, 5e-324, -1e-7⟩]⟩

theorem json_round_trip_extremes :
    (Json.read? extremeGate.toJson.write).bind Gate.ofJson? = some extremeGate ∧ everyKind.WellFormed ∧
      Circuit.ofJsonText? everyKind.toJsonText = some everyKind := by
  have hgate : ∀ a ∈ extremeGate.angles, a.isFinite = true := by decide +kernel
  have hcircuit : everyKind.WellFormed := by
    unfold Circuit.WellFormed
    decide +kernel
  exact ⟨json_round_trip.1 extremeGate hgate, hcircuit, json_round_trip.2 everyKind hcircuit⟩

end RotationCircuits
