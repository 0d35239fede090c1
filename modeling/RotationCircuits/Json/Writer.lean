import RotationCircuits.Json.Value

/-!
# Writing JSON

Values are written without blanks. Numbers with a decimal exponent from -5 to 15 are written in positional notation with
at least one fraction digit, other numbers in scientific notation with the sign of the exponent.
-/

namespace RotationCircuits.Json

/-- The characters of a number that is not an integer token. -/
def decimalChars (d : Decimal) : List Char :=
  let power := d.exponent + (Decimal.digits d.significand).length - 1
  if -5 ≤ power ∧ power ≤ 15 then
    if 0 ≤ d.exponent then d.positional ++ ['.', '0'] else d.positional
  else d.scientific ['+']

def Number.chars : Number → List Char
  | integer negative n => (if negative then ['-'] else []) ++ Decimal.digits n
  | decimal negative d => (if negative then ['-'] else []) ++ decimalChars d

/-- The lower-case hexadecimal digit of a number below 16. -/
def hexDigit (n : Nat) : Char := Nat.digitChar n

/-- A character inside a string: quote, backslash and control characters are escaped. -/
def escape (c : Char) : List Char :=
  if c = '\"' then ['\\', '\"']
  else if c = '\\' then ['\\', '\\']
  else if c = '\n' then ['\\', 'n']
  else if c = '\t' then ['\\', 't']
  else if c = '\r' then ['\\', 'r']
  else if c = '\x08' then ['\\', 'b']
  else if c = '\x0c' then ['\\', 'f']
  else if c.toNat < 0x20 then ['\\', 'u', '0', '0', hexDigit (c.toNat / 16), hexDigit (c.toNat % 16)]
  else [c]

/-- The characters of a string in quotes; a string without text is written as an empty one. -/
def quote (text : Option String) : List Char := '\"' :: ((text.getD "").toList.flatMap escape ++ ['\"'])

mutual

def Value.chars : Value → List Char
  | .null => ['n', 'u', 'l', 'l']
  | .bool true => ['t', 'r', 'u', 'e']
  | .bool false => ['f', 'a', 'l', 's', 'e']
  | .number n => n.chars
  | .string text => quote text
  | .array items => '[' :: (itemsChars items ++ [']'])
  | .object members => '\x7b' :: (membersChars members ++ ['\x7d'])

/-- The characters of items, separated by commas. -/
def itemsChars : List Value → List Char
  | [] => []
  | [v] => v.chars
  | v :: vs => v.chars ++ ',' :: itemsChars vs

/-- The characters of members, separated by commas. -/
def membersChars : List (Option String × Value) → List Char
  | [] => []
  | [(k, v)] => quote k ++ ':' :: v.chars
  | (k, v) :: ms => quote k ++ ':' :: (v.chars ++ ',' :: membersChars ms)

end

def Value.write (v : Value) : String := .ofList v.chars

end RotationCircuits.Json
