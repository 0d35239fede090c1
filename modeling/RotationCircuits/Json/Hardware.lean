import RotationCircuits.Hardware.Profile
import RotationCircuits.Json.Reader
import RotationCircuits.Json.Writer

/-!
# Hardware descriptions in JSON

A description may leave out gate names and durations, and has no other members than its fields.
-/

namespace RotationCircuits.Hardware

open Json (Value)

def Basis.toJson : Basis → Value
  | xyz => .ofString "Xyz"
  | xz => .ofString "Xz"
  | yz => .ofString "Yz"

def Basis.ofJson? (v : Value) : Option Basis :=
  match v.variant? with
  | some ("Xyz", .null) => some .xyz
  | some ("Xz", .null) => some .xz
  | some ("Yz", .null) => some .yz
  | _ => none

def durationToJson (d : UInt64) : Value := .ofNat d.toNat

def durationOfJson? (v : Value) : Option UInt64 := (v.nat? UInt64.size).map .ofNat

/-- The fields of durations that may have other members beside them. -/
def Durations.fields : Json.Record := ⟨["x", "y", "z", "cx"], true⟩

def Durations.toJson (d : Durations) : Value :=
  .ofMembers [("x", durationToJson d.x), ("y", durationToJson d.y), ("z", durationToJson d.z), ("cx", durationToJson d.cx)]

/-- Durations from an object or an array, all of them given. -/
def Durations.ofJson? (v : Value) : Option Durations :=
  match Durations.fields.read? v with
  | some [some x, some y, some z, some cx] => do
    return ⟨← durationOfJson? x, ← durationOfJson? y, ← durationOfJson? z, ← durationOfJson? cx⟩
  | _ => none

/-- The fields of durations in a description. -/
def PartialDurations.fields : Json.Record := ⟨["x", "y", "z", "cx"], false⟩

/-- A member for a duration that is given, nothing for one that is not. -/
def givenMember (key : String) (d : Option UInt64) : List (String × Value) :=
  match d with
  | some d => [(key, durationToJson d)]
  | none => []

/-- The given durations as an object. -/
def PartialDurations.toJson (d : PartialDurations) : Value :=
  .ofMembers (givenMember "x" d.x ++ givenMember "y" d.y ++ givenMember "z" d.z ++ givenMember "cx" d.cx)

/-- A duration that may be left out or `null`. -/
def givenOfJson? : Option Value → Option (Option UInt64)
  | none => some none
  | some .null => some none
  | some v => (durationOfJson? v).map some

/-- Durations of a description from an object or an array. -/
def PartialDurations.ofJson? (v : Value) : Option PartialDurations :=
  match PartialDurations.fields.read? v with
  | some [x, y, z, cx] => do
    return ⟨← givenOfJson? x, ← givenOfJson? y, ← givenOfJson? z, ← givenOfJson? cx⟩
  | _ => none

namespace Config

def fields : Json.Record := ⟨["num_qubits", "basis_gates", "durations"], false⟩

/-- A description as an object. -/
def toJson (c : Config) : Value :=
  .ofMembers [("num_qubits", .ofNat c.width), ("basis_gates", .array (c.gateNames.map .ofString)),
    ("durations", c.durations.toJson)]

/-- Gate names, by default those of the full basis. -/
def gateNamesOfJson? : Option Value → Option (List String)
  | none => some Basis.xyz.gateNames
  | some v => do (← v.items?).mapM Value.text?

/-- Durations, by default none. -/
def durationsOfJson? : Option Value → Option PartialDurations
  | none => some {}
  | some v => PartialDurations.ofJson? v

/-- A description from an object or an array. -/
def ofJson? (v : Value) : Option Config :=
  match fields.read? v with
  | some [some w, names, durations] => do
    return ⟨← w.nat? UInt32.size, ← gateNamesOfJson? names, ← durationsOfJson? durations⟩
  | _ => none

end Config

namespace Profile

/-- The JSON text of a profile: its full description. -/
def toJsonText (p : Profile) : String := p.toConfig.toJson.write

def ofJsonText {α : Type} (text : String) : Except (Error α) Profile :=
  match (Json.read? text).bind Config.ofJson? with
  | none => .error .unreadableProfile
  | some c =>
    match c.toProfile with
    | .ok p => .ok p
    | .error e => .error (.profile e)

end Profile

end RotationCircuits.Hardware
