import RotationCircuits.Json.Hardware
import RotationCircuits.Proofs.Json.Record
import RotationCircuits.Proofs.Native

/-!
# Hardware descriptions

Which descriptions are profiles, and the way of a profile through its description and its JSON text and back
(`profiles_accepted_and_read_back`). A description stands for at most one profile (`Config.toProfile_eq_ok_iff`), and every
profile has a description that stands for it.
-/

namespace RotationCircuits.Hardware

open Json (Value)

/-! ## Acceptance -/

/-- Gate names make a basis exactly if they are its names as a set. -/
theorem Basis.ofGateNames_eq_ok_iff {names : List String} {b : Basis} :
    ofGateNames names = .ok b ↔ ∀ name, name ∈ names ↔ name ∈ b.gateNames := by
  have hbasis : ∀ name ∈ b.gateNames, isGateName name = true := by cases b <;> decide
  rw [ofGateNames]
  cases hfind : names.find? fun n => !isGateName n with
  | some n =>
    have hn : isGateName n = false := by simpa using List.find?_some hfind
    have hmem := List.mem_of_find?_eq_some hfind
    simp only [reduceCtorEq, false_iff]
    intro h
    exact Bool.false_ne_true (hn.symm.trans (hbasis n ((h n).1 hmem)))
  | none =>
    have hknown : ∀ name ∈ names, isGateName name = true := by simpa using List.find?_eq_none.1 hfind
    -- Where all names are known, a set of names is told by which of the four names are in it.
    have hset : (∀ name, name ∈ names ↔ name ∈ b.gateNames) ↔
        ∀ name ∈ xyz.gateNames, names.contains name = b.gateNames.contains name := by
      constructor
      · intro h name _
        rw [Bool.eq_iff_iff, List.contains_iff_mem, List.contains_iff_mem, h name]
      · intro h name
        by_cases hname : name ∈ xyz.gateNames
        · rw [← List.contains_iff_mem, h name hname, List.contains_iff_mem]
        · have hunknown : ¬ isGateName name = true := by simpa [isGateName] using hname
          exact ⟨fun hm => absurd (hknown name hm) hunknown, fun hm => absurd (hbasis name hm) hunknown⟩
    rw [hset]
    cases b <;> simp only [gateNames, List.forall_mem_cons] <;> split <;> simp_all

theorem Profile.ofBasis_eq_ok_iff {width : Nat} {b : Basis} {p : Profile} :
    ofBasis width b = .ok p ↔ p.width = width ∧ p.basis = b ∧ p.durations = .standard := by
  rw [ofBasis]
  split
  · next h =>
    obtain ⟨w, b', d, hw, hd⟩ := p
    simp [eq_comm]
  · next h =>
    simp only [reduceCtorEq, false_iff]
    rintro ⟨rfl, -, -⟩
    exact h p.width_eq

theorem Profile.withDurations_eq_ok_iff {p q : Profile} {d : Durations} :
    p.withDurations d = .ok q ↔ q.width = p.width ∧ q.basis = p.basis ∧ q.durations = d := by
  rw [withDurations]
  split
  · next h =>
    obtain ⟨w, b', d', hw, hd⟩ := q
    simp [eq_comm]
  · next h =>
    simp only [reduceCtorEq, false_iff]
    rintro ⟨-, -, rfl⟩
    exact h q.positive

/-- A description stands for the profile that has its gate names, its width and its durations. -/
theorem Config.toProfile_eq_ok_iff {c : Config} {p : Profile} :
    c.toProfile = .ok p ↔
      (∀ name, name ∈ c.gateNames ↔ name ∈ p.basis.gateNames) ∧ p.width = c.width ∧ p.durations = c.durations.resolve := by
  simp only [toProfile, bind_eq_ok, Basis.ofGateNames_eq_ok_iff, Profile.ofBasis_eq_ok_iff, Profile.withDurations_eq_ok_iff]
  constructor
  · rintro ⟨b, hnames, q, ⟨hwidth, hbasis, -⟩, hw, hb, hd⟩
    rw [hb, hbasis]
    exact ⟨hnames, hw.trans hwidth, hd⟩
  · rintro ⟨hnames, hw, hd⟩
    exact ⟨p.basis, hnames, ⟨p.width, p.basis, .standard, p.width_eq, by decide⟩, ⟨hw, rfl, rfl⟩, rfl, rfl, hd⟩

theorem getD_ne_zero_iff {given : Option UInt64} {standard : UInt64} (h : standard ≠ 0) :
    given.getD standard ≠ 0 ↔ given ≠ some 0 := by
  cases given <;> simp [h]

/-- The standard durations take time, so only a duration that is given can be zero. -/
theorem PartialDurations.positive_resolve_iff {d : PartialDurations} :
    d.resolve.Positive ↔ ∀ given ∈ [d.x, d.y, d.z, d.cx], given ≠ some 0 := by
  simp only [List.forall_mem_cons, List.not_mem_nil, false_imp_iff, implies_true, and_true]
  refine and_congr ?_ (and_congr ?_ (and_congr ?_ ?_)) <;> exact getD_ne_zero_iff (by decide)

theorem Config.exists_toProfile_iff {c : Config} :
    (∃ p, c.toProfile = .ok p) ↔
      (∃ b : Basis, ∀ name, name ∈ c.gateNames ↔ name ∈ b.gateNames) ∧ (c.width = 1 ∨ c.width = 2) ∧
        ∀ given ∈ [c.durations.x, c.durations.y, c.durations.z, c.durations.cx], given ≠ some 0 := by
  rw [← PartialDurations.positive_resolve_iff]
  constructor
  · rintro ⟨p, hp⟩
    obtain ⟨hnames, hw, hd⟩ := toProfile_eq_ok_iff.1 hp
    rw [← hw, ← hd]
    exact ⟨⟨p.basis, hnames⟩, p.width_eq, p.positive⟩
  · rintro ⟨⟨b, hnames⟩, hw, hd⟩
    exact ⟨⟨c.width, b, c.durations.resolve, hw, hd⟩, toProfile_eq_ok_iff.2 ⟨hnames, rfl, rfl⟩⟩

/-- Every profile is what its full description stands for. -/
theorem Profile.toProfile_toConfig (p : Profile) : p.toConfig.toProfile = .ok p :=
  Config.toProfile_eq_ok_iff.2 ⟨fun _ => Iff.rfl, rfl, rfl⟩

/-! ## Descriptions in JSON -/

theorem encodes_durationToJson (d : UInt64) : (durationToJson d).Encodes durationOfJson? d := by
  have hcode := (Value.Encodes.ofNat d.toNat_lt_size).map UInt64.ofNat
  rw [UInt64.ofNat_toNat] at hcode
  exact hcode

theorem readsBack_of_mem_given {given : Option UInt64} : ∀ v ∈ given.map durationToJson, v.ReadsBack := by
  intro v hv
  obtain ⟨d, -, rfl⟩ := Option.mem_map.1 hv
  exact (encodes_durationToJson d).readsBack

theorem givenOfJson?_map (given : Option UInt64) : givenOfJson? (given.map durationToJson) = some given := by
  cases given with
  | none => rfl
  | some d =>
    change (durationOfJson? (durationToJson d)).map some = _
    rw [(encodes_durationToJson d).decoded, Option.map_some]

theorem PartialDurations.encodes_toJson (d : PartialDurations) : d.toJson.Encodes PartialDurations.ofJson? d := by
  let values := [d.x.map durationToJson, d.y.map durationToJson, d.z.map durationToJson, d.cx.map durationToJson]
  have hjson : d.toJson = .object (Json.Record.given fields.fields values) := by
    rcases d with ⟨_ | _, _ | _, _ | _, _ | _⟩ <;> rfl
  rw [hjson]
  refine ⟨Json.Record.readsBack_given ?_, ?_⟩
  · simp only [values, List.forall_mem_cons, List.not_mem_nil, false_imp_iff, implies_true, and_true]
    exact ⟨readsBack_of_mem_given, readsBack_of_mem_given, readsBack_of_mem_given, readsBack_of_mem_given⟩
  · rw [ofJson?, Json.Record.read?_given (by decide) rfl]
    simp [values, givenOfJson?_map]

/-- A description comes back if its width has 32 bits, whether it stands for a profile or not. -/
theorem Config.encodes_toJson {c : Config} (hwidth : c.width < UInt32.size) : c.toJson.Encodes Config.ofJson? c := by
  have hw := Value.Encodes.ofNat hwidth
  have hnames : (Value.array (c.gateNames.map .ofString)).Encodes _ _ := Value.Encodes.array fun s _ => .ofString s
  have hd := c.durations.encodes_toJson
  let values := [some (Value.ofNat c.width), some (.array (c.gateNames.map .ofString)), some c.durations.toJson]
  change (Value.object (Json.Record.given fields.fields values)).Encodes _ _
  refine ⟨Json.Record.readsBack_given ?_, ?_⟩
  · simpa [values] using ⟨hw.readsBack, hnames.readsBack, hd.readsBack⟩
  · have hnames' : gateNamesOfJson? (some (.array (c.gateNames.map .ofString))) = some c.gateNames := hnames.decoded
    rw [ofJson?, Json.Record.read?_given (by decide) rfl]
    simp [values, hw.decoded, hnames', durationsOfJson?, hd.decoded]

theorem Profile.ofJsonText_toJsonText {α : Type} (p : Profile) :
    (ofJsonText p.toJsonText : Except (Error α) Profile) = .ok p := by
  have hwidth : p.toConfig.width < UInt32.size := by
    change p.width < _
    rcases p.width_eq with h | h <;> rw [h] <;> decide
  rw [ofJsonText, toJsonText, (Config.encodes_toJson hwidth).bind_read?]
  simp only [toProfile_toConfig]

/-- **Acceptance and round trip of profiles.** A description stands for a profile exactly if its gate names are those of one
of the three bases as a set, its width is 1 or 2 and none of the durations it gives is zero. The profile has this basis and
this width, and the standard duration where none is given. Every profile comes back from its full description and from its
JSON text, so an accepted text may be replaced by the text of its profile. -/
theorem profiles_accepted_and_read_back (α : Type) :
    (∀ c : Config, (∃ p, c.toProfile = .ok p) ↔
      (∃ b : Basis, ∀ name, name ∈ c.gateNames ↔ name ∈ b.gateNames) ∧ (c.width = 1 ∨ c.width = 2) ∧
        ∀ given ∈ [c.durations.x, c.durations.y, c.durations.z, c.durations.cx], given ≠ some 0) ∧
    (∀ (c : Config) (p : Profile), c.toProfile = .ok p →
      (∀ name, name ∈ c.gateNames ↔ name ∈ p.basis.gateNames) ∧ p.width = c.width ∧
        p.durations = ⟨c.durations.x.getD 10, c.durations.y.getD 10, c.durations.z.getD 10, c.durations.cx.getD 100⟩) ∧
    (∀ p : Profile, p.toConfig.toProfile = .ok p ∧
      (Profile.ofJsonText p.toJsonText : Except (Error α) Profile) = .ok p) ∧
    ∀ (text : String) (p : Profile), (Profile.ofJsonText text : Except (Error α) Profile) = .ok p →
      Profile.ofJsonText p.toJsonText = (Profile.ofJsonText text : Except (Error α) Profile) := by
  refine ⟨fun c => Config.exists_toProfile_iff, fun c p h => Config.toProfile_eq_ok_iff.1 h, fun p => ?_, fun text p h => ?_⟩
  · exact ⟨p.toProfile_toConfig, p.ofJsonText_toJsonText⟩
  · rw [h, p.ofJsonText_toJsonText]

/-- Names out of order and repeated, two durations left out. -/
def repeated : Config where
  width := 2
  gateNames := ["CX", "Z", "X", "Z"]
  durations := { y := some 7, cx := some 18446744073709551615 }

def repeatedProfile : Profile :=
  { Profile.pair .xz with durations := ⟨10, 7, 10, 18446744073709551615⟩, positive := by decide }

/-- The same description with its members in another order, blanks, an escape and a duration that is `null`. -/
def repeatedText : String :=
  " \x7b\"durations\":[null,7,null,18446744073709551615], \"basis_gates\":[\"CX\",\"\\u005a\",\"X\",\"Z\"],\"num_qubits\":2\x7d\n"

theorem profiles_accepted_and_read_back_repeated :
    repeated.toProfile = .ok repeatedProfile ∧
      repeatedProfile.durations = ⟨repeated.durations.x.getD 10, 7, repeated.durations.z.getD 10, 18446744073709551615⟩ ∧
      (Profile.ofJsonText repeatedText : Except (Error Float) Profile) = .ok repeatedProfile ∧
      Profile.ofJsonText repeatedProfile.toJsonText = (Profile.ofJsonText repeatedText : Except (Error Float) Profile) := by
  have hconfig : repeated.toProfile = .ok repeatedProfile := by decide +kernel
  have htext : (Profile.ofJsonText repeatedText : Except (Error Float) Profile) = .ok repeatedProfile := by decide +kernel
  obtain ⟨-, hprofile, -, hagain⟩ := profiles_accepted_and_read_back Float
  exact ⟨hconfig, (hprofile repeated repeatedProfile hconfig).2.2, htext, hagain repeatedText repeatedProfile htext⟩

end RotationCircuits.Hardware
