import RotationCircuits.Json.Value
import RotationCircuits.Text.Token

/-!
# Reading JSON

The reader accepts strict JSON: no comments, no trailing commas, no leading zeros, no raw control characters in strings,
and nothing but blanks around the one value.
-/

namespace RotationCircuits.Json

open Decimal (isDigit)

/-- The input without blanks in front. -/
def skipBlanks (cs : List Char) : List Char := cs.dropWhile Text.isBlank

/-- The digits before the point: a lone zero, or digits that do not start with one. -/
def whole? : List Char → Option (List Char × List Char)
  | '0' :: cs => some (['0'], cs)
  | cs => if cs.takeWhile isDigit = [] then none else some (cs.takeWhile isDigit, cs.dropWhile isDigit)

/-- The point and the digits after it, if there are any. -/
def fraction? : List Char → Option (List Char × List Char)
  | '.' :: cs => if cs.takeWhile isDigit = [] then none else some (cs.takeWhile isDigit, cs.dropWhile isDigit)
  | _ => none

/-- The longest number at the front of the input, after its sign. -/
def magnitude? (negative : Bool) (cs : List Char) : Option (Number × List Char) := do
  let (whole, cs) ← whole? cs
  match fraction? cs, Decimal.exponent? ((fraction? cs).elim cs Prod.snd) with
  | none, none => some (.integer negative (Decimal.ofDigits whole), cs)
  | none, some (power, _, cs) => some (.decimal negative (Decimal.ofParts whole [] power).normalize, cs)
  | some (ds, cs), none => some (.decimal negative (Decimal.ofParts whole ds 0).normalize, cs)
  | some (ds, _), some (power, _, cs) => some (.decimal negative (Decimal.ofParts whole ds power).normalize, cs)

/-- The longest number at the front of the input. -/
def number? : List Char → Option (Number × List Char)
  | '-' :: cs => magnitude? true cs
  | cs => magnitude? false cs

/-- A part of a string: a character, or the 16-bit unit of a numeric escape. -/
inductive Piece where
  | char (c : Char)
  | code (n : Nat)
deriving DecidableEq, Repr

def hexValue? (c : Char) : Option Nat :=
  if '0' ≤ c ∧ c ≤ '9' then some (c.toNat - '0'.toNat)
  else if 'a' ≤ c ∧ c ≤ 'f' then some (c.toNat - 'a'.toNat + 10)
  else if 'A' ≤ c ∧ c ≤ 'F' then some (c.toNat - 'A'.toNat + 10)
  else none

/-- The 16-bit unit of four hexadecimal digits. -/
def code? (a b c d : Char) : Option Nat := do
  return (← hexValue? a) * 4096 + (← hexValue? b) * 256 + (← hexValue? c) * 16 + (← hexValue? d)

/-- The character of a one-letter escape. -/
def unescape? (c : Char) : Option Char :=
  if c = '\"' ∨ c = '\\' ∨ c = '/' then some c
  else if c = 'b' then some '\x08'
  else if c = 'f' then some '\x0c'
  else if c = 'n' then some '\n'
  else if c = 'r' then some '\r'
  else if c = 't' then some '\t'
  else none

/-- The parts of a string after its opening quote, up to the closing one, and what follows. -/
def pieces? : List Char → Option (List Piece × List Char)
  | [] => none
  | '\"' :: cs => some ([], cs)
  | '\\' :: 'u' :: a :: b :: c :: d :: cs => do
    let n ← code? a b c d
    let (ps, rest) ← pieces? cs
    return (.code n :: ps, rest)
  | '\\' :: e :: cs => do
    let c ← unescape? e
    let (ps, rest) ← pieces? cs
    return (.char c :: ps, rest)
  | c :: cs => do
    if c.toNat < 0x20 ∨ c = '\\' then none
    let (ps, rest) ← pieces? cs
    return (.char c :: ps, rest)

/-- Is this the first half of a surrogate pair? -/
def isHigh (n : Nat) : Bool := 0xD800 ≤ n && n < 0xDC00

/-- Is this the second half of a surrogate pair? -/
def isLow (n : Nat) : Bool := 0xDC00 ≤ n && n < 0xE000

/-- The characters of the parts, unless there is half a surrogate pair among them. -/
def textOf? : List Piece → Option (List Char)
  | [] => some []
  | .char c :: ps => (textOf? ps).map (c :: ·)
  | .code n :: .code m :: ps =>
    if isHigh n ∧ isLow m then
      (textOf? ps).map (Char.ofNat (0x10000 + (n - 0xD800) * 0x400 + (m - 0xDC00)) :: ·)
    else if isHigh n ∨ isLow n then none
    else (textOf? (.code m :: ps)).map (Char.ofNat n :: ·)
  | .code n :: ps => if isHigh n ∨ isLow n then none else (textOf? ps).map (Char.ofNat n :: ·)

/-- A string after its opening quote. -/
def string? (cs : List Char) : Option (Option String × List Char) :=
  (pieces? cs).map fun (ps, rest) => ((textOf? ps).map .ofList, rest)

mutual

/-- A value at the front of the input. Each call uses up fuel, which bounds the calls inside one another. -/
def value? : Nat → List Char → Option (Value × List Char)
  | 0, _ => none
  | fuel + 1, cs =>
    match skipBlanks cs with
    | 'n' :: 'u' :: 'l' :: 'l' :: cs => some (.null, cs)
    | 't' :: 'r' :: 'u' :: 'e' :: cs => some (.bool true, cs)
    | 'f' :: 'a' :: 'l' :: 's' :: 'e' :: cs => some (.bool false, cs)
    | '\"' :: cs => (string? cs).map fun (s, rest) => (.string s, rest)
    | '[' :: cs =>
      match skipBlanks cs with
      | ']' :: cs => some (.array [], cs)
      | _ => (itemsOf? fuel cs).map fun (vs, rest) => (.array vs, rest)
    | '\x7b' :: cs =>
      match skipBlanks cs with
      | '\x7d' :: cs => some (.object [], cs)
      | _ => (membersOf? fuel cs).map fun (ms, rest) => (.object ms, rest)
    | cs => (number? cs).map fun (n, rest) => (.number n, rest)

/-- The items of an array up to its closing bracket. -/
def itemsOf? : Nat → List Char → Option (List Value × List Char)
  | 0, _ => none
  | fuel + 1, cs =>
    match value? fuel cs with
    | none => none
    | some (v, cs) =>
      match skipBlanks cs with
      | ',' :: cs => (itemsOf? fuel cs).map fun (vs, rest) => (v :: vs, rest)
      | ']' :: cs => some ([v], cs)
      | _ => none

/-- The members of an object up to its closing brace. -/
def membersOf? : Nat → List Char → Option (List (Option String × Value) × List Char)
  | 0, _ => none
  | fuel + 1, cs =>
    match skipBlanks cs with
    | '\"' :: cs =>
      match string? cs with
      | some (k, cs) =>
        match skipBlanks cs with
        | ':' :: cs =>
          match value? fuel cs with
          | none => none
          | some (v, cs) =>
            match skipBlanks cs with
            | ',' :: cs => (membersOf? fuel cs).map fun (ms, rest) => ((k, v) :: ms, rest)
            | '\x7d' :: cs => some ([(k, v)], cs)
            | _ => none
        | _ => none
      | _ => none
    | _ => none

end

/-- The value of a whole text given by its characters. Every second call at least consumes a character. -/
def readChars? (cs : List Char) : Option Value :=
  match value? (2 * cs.length + 2) cs with
  | some (v, rest) => if skipBlanks rest = [] then some v else none
  | none => none

def read? (text : String) : Option Value := readChars? text.toList

end RotationCircuits.Json
