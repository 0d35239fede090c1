import RotationCircuits.Decimal.Layout

/-!
# JSON values

A value keeps what a decoder can ask about: whether a number was written as an integer, members in order with
repetitions, and strings that are well formed but spell no text, which are an error only where the text is asked for.

A record is written as an object with its fields as members, in any order, or as an array of its fields in their own
order.
-/

namespace RotationCircuits.Json

/-- A number as it is written. -/
inductive Number where
  /-- Digits only, perhaps after a minus. -/
  | integer (negative : Bool) (magnitude : Nat)
  /-- With a fraction or an exponent. -/
  | decimal (negative : Bool) (magnitude : Decimal)
deriving DecidableEq, Repr

/-- A JSON value. -/
inductive Value where
  | null
  | bool (value : Bool)
  | number (value : Number)
  /-- A string; without text if an escape in it stands for half a surrogate pair. -/
  | string (text : Option String)
  | array (items : List Value)
  /-- Members with their keys, which are strings as well. -/
  | object (members : List (Option String × Value))

namespace Value

/-- A natural number below a bound, written as an integer without sign. -/
def nat? (bound : Nat) : Value → Option Nat
  | number (.integer false n) => if n < bound then some n else none
  | _ => none

/-- The double with a sign and a magnitude, unless it is infinite. -/
def finite? (negative : Bool) (d : Decimal) : Option Float :=
  if d.toFloat.isFinite then some (if negative then -d.toFloat else d.toFloat) else none

/-- A finite double: any number that does not round to infinity. -/
def float? : Value → Option Float
  | number (.integer negative n) => finite? negative ⟨n, 0⟩
  | number (.decimal negative d) => finite? negative d
  | _ => none

def text? : Value → Option String
  | string text => text
  | _ => none

def items? : Value → Option (List Value)
  | array items => some items
  | _ => none

/-- A named alternative with its content: an object with one member, or a string for an alternative without content. -/
def variant? : Value → Option (String × Value)
  | string (some name) => some (name, null)
  | object [(some name, content)] => some (name, content)
  | _ => none

def ofNat (n : Nat) : Value := number (.integer false n)

/-- A double. Infinities and values that are not numbers have no JSON form and become `null`. -/
def ofFloat (x : Float) : Value :=
  if x.isFinite then number (.decimal (Binary64.isNegative x) (Decimal.shortest .even x)) else null

def ofString (s : String) : Value := string (some s)

def ofMembers (members : List (String × Value)) : Value := object (members.map fun (k, v) => (some k, v))

end Value

/-! ## Records -/

/-- The fields of a record, in order, and whether an object may have other members. -/
structure Record where
  fields : List String
  isOpen : Bool
deriving DecidableEq, Repr

namespace Record

/-- The member with a key: nothing at all if there are two of them, and no value if there is none. -/
def member? (members : List (Option String × Value)) (key : String) : Option (Option Value) :=
  match members.filter fun m => m.1 = some key with
  | [] => some none
  | [m] => some (some m.2)
  | _ => none

/-- May an object have a member with this key? A key without text is never allowed. -/
def allows (r : Record) : Option String → Bool
  | some key => r.isOpen || r.fields.contains key
  | none => false

/-- The value of each field, or none for a field that is left out. An array may leave out fields at its end. -/
def read? (r : Record) : Value → Option (List (Option Value))
  | .object members =>
    if members.all fun m => r.allows m.1 then r.fields.mapM (member? members) else none
  | .array items =>
    if items.length ≤ r.fields.length then
      some (items.map some ++ List.replicate (r.fields.length - items.length) none)
    else none
  | _ => none

end Record

end RotationCircuits.Json
