import RotationCircuits.Circuit
import RotationCircuits.Json.Reader
import RotationCircuits.Json.Writer

/-!
# Gates and circuits in JSON

A qubit is its index, an axis its letter, and a gate an object that names its kind. Reading a circuit checks the form
only: widths, qubits and pairs may be out of range.
-/

namespace RotationCircuits

open Json (Value)

def Qubit.toJson (q : Qubit) : Value := .ofNat q.index.toNat

def Qubit.ofJson? (v : Value) : Option Qubit := (v.nat? UInt32.size).map fun n => ⟨.ofNat n⟩

def Axis.toJson (a : Axis) : Value := .ofString a.name

def Axis.ofJson? (v : Value) : Option Axis :=
  match v.variant? with
  | some ("X", .null) => some .x
  | some ("Y", .null) => some .y
  | some ("Z", .null) => some .z
  | _ => none

namespace Gate

def generalFields : Json.Record := ⟨["qubit", "theta", "phi", "lambda"], true⟩

/-- The name of the rotations around an axis. -/
def rotationKey : Axis → String
  | .x => "Rx"
  | .y => "Ry"
  | .z => "Rz"

/-- A gate as an object with one member. -/
def toJson : Gate Float → Value
  | rotation a q θ => .ofMembers [(rotationKey a, .array [q.toJson, .ofFloat θ])]
  | cx c t => .ofMembers [("Cx", .array [c.toJson, t.toJson])]
  | general q e => .ofMembers [("U", .ofMembers [("qubit", q.toJson), ("theta", .ofFloat e.theta),
      ("phi", .ofFloat e.phi), ("lambda", .ofFloat e.lambda)])]

/-- The content of a rotation. -/
def rotationOfJson? (a : Axis) : Value → Option (Gate Float)
  | .array [q, θ] => do return rotation a (← Qubit.ofJson? q) (← θ.float?)
  | _ => none

/-- The content of a CX. -/
def cxOfJson? : Value → Option (Gate Float)
  | .array [c, t] => do return cx (← Qubit.ofJson? c) (← Qubit.ofJson? t)
  | _ => none

/-- The content of a general gate. -/
def generalOfJson? (v : Value) : Option (Gate Float) :=
  match generalFields.read? v with
  | some [some q, some θ, some φ, some l] => do
    return general (← Qubit.ofJson? q) ⟨← θ.float?, ← φ.float?, ← l.float?⟩
  | _ => none

/-- A gate from an object with one member. -/
def ofJson? (v : Value) : Option (Gate Float) :=
  match v.variant? with
  | some ("Rx", content) => rotationOfJson? .x content
  | some ("Ry", content) => rotationOfJson? .y content
  | some ("Rz", content) => rotationOfJson? .z content
  | some ("Cx", content) => cxOfJson? content
  | some ("U", content) => generalOfJson? content
  | _ => none

end Gate

namespace Circuit

def fields : Json.Record := ⟨["num_qubits", "gates"], true⟩

/-- A circuit as an object. -/
def toJson (c : Circuit Float) : Value :=
  .ofMembers [("num_qubits", .ofNat c.width), ("gates", .array (c.gates.map Gate.toJson))]

/-- A circuit from an object or an array. -/
def ofJson? (v : Value) : Option (Circuit Float) :=
  match fields.read? v with
  | some [some w, some gs] => do return ⟨← w.nat? UInt32.size, ← (← gs.items?).mapM Gate.ofJson?⟩
  | _ => none

def toJsonText (c : Circuit Float) : String := c.toJson.write

def ofJsonText? (text : String) : Option (Circuit Float) := (Json.read? text).bind ofJson?

end Circuit

end RotationCircuits
