import RotationCircuits.Binary64
import RotationCircuits.Circuit
import RotationCircuits.Text.Error
import RotationCircuits.Text.Lexer

/-!
# Circuit notation

    program := (empty) | "[" "]" | gate ("," gate)*
    gate    := ("X" | "Y" | "Z") "(" index "," angle ")" | "CX" "(" index "," index ")"
    angle   := ("+" | "-")? (integer | decimal)

The source is cut into tokens first, so a character that starts no token is reported before any misplaced token. The
general gate has no notation and cannot be printed.
-/

namespace RotationCircuits.Text

/-! ## Parsing -/

/-- A token and the byte offset of its first character. -/
structure Located where
  token : Token
  start : Nat
deriving DecidableEq, Repr

/-- The tokens of a source, or the first character that starts none. -/
def located : List Lexeme → Except ParseError (List Located)
  | [] => .ok []
  | l :: ls =>
    match l.token with
    | .error c => .error (.invalidCharacter l.start c)
    | .ok t => do return ⟨t, l.start⟩ :: (← located ls)

/-- The error of finding `found` instead of `expected`. -/
def unexpected (expected : Expected) (found : Located) : ParseError :=
  .unexpectedToken found.start expected found.token.text

/-- Reads one given token; gives back what follows it. -/
def expect (t : Token) : List Located → Except ParseError (List Located)
  | [] => .error (.unexpectedEnd (.token t))
  | f :: rest => if f.token = t then .ok rest else .error (unexpected (.token t) f)

/-- Reads a qubit index. -/
def qubit : List Located → Except ParseError (Qubit × List Located)
  | [] => .error (.unexpectedEnd .qubitIndex)
  | f :: rest =>
    match f.token with
    | .integer ds =>
      if Decimal.ofDigits ds < UInt32.size then .ok (⟨.ofNat (Decimal.ofDigits ds)⟩, rest)
      else .error (.invalidIndex ds)
    | _ => .error (unexpected .qubitIndex f)

/-- Reads a number without sign. -/
def magnitude : List Located → Except ParseError (Float × List Located)
  | [] => .error (.unexpectedEnd .angle)
  | f :: rest =>
    match f.token with
    | .decimal v => .ok (v, rest)
    | .integer ds => .ok ((Decimal.ofParts ds [] 0).toFloat, rest)
    | _ => .error (unexpected .angle f)

/-- Reads an angle with an optional sign. -/
def angle : List Located → Except ParseError (Float × List Located)
  | ⟨.minus, _⟩ :: rest => do
    let (v, rest) ← magnitude rest
    return (-v, rest)
  | ⟨.plus, _⟩ :: rest => magnitude rest
  | ts => magnitude ts

/-- Reads the parameters of a rotation. -/
def rotation (a : Axis) (ts : List Located) : Except ParseError (Gate Float × List Located) := do
  let ts ← expect .leftParen ts
  let (q, ts) ← qubit ts
  let ts ← expect .comma ts
  let (θ, ts) ← angle ts
  let ts ← expect .rightParen ts
  return (.rotation a q θ, ts)

/-- Reads the parameters of a CX. The pair is checked after the closing parenthesis. -/
def cx (ts : List Located) : Except ParseError (Gate Float × List Located) := do
  let ts ← expect .leftParen ts
  let (control, ts) ← qubit ts
  let ts ← expect .comma ts
  let (target, ts) ← qubit ts
  let ts ← expect .rightParen ts
  match Gate.checkedCx control target with
  | .ok g => return (g, ts)
  | .error e => throw (.circuit e)

/-- Reads a gate. -/
def gate : List Located → Except ParseError (Gate Float × List Located)
  | [] => .error (.unexpectedEnd .gate)
  | f :: rest =>
    match f.token with
    | .axis a => rotation a rest
    | .cx => cx rest
    | .identifier n => .error (.unknownGate n)
    | _ => .error (unexpected .gate f)

/-- Reads gates separated by commas, up to the end; every gate takes at least one of the `fuel` tokens left. -/
def gates : Nat → List Located → Except ParseError (List (Gate Float))
  | 0, _ => .error (.unexpectedEnd .gate)
  | fuel + 1, ts => do
    let (g, ts) ← gate ts
    match ts with
    | [] => return [g]
    | ts => return g :: (← gates fuel (← expect .comma ts))

/-- Reads a whole program from its tokens. -/
def program : List Located → Except ParseError (List (Gate Float))
  | [] => .ok []
  | ⟨.leftBracket, _⟩ :: rest => do
    match ← expect .rightBracket rest with
    | [] => return []
    | f :: _ => throw (unexpected .endOfInput f)
  | ts => gates ts.length ts

/-- The gates of a source given by its characters. -/
def parseChars (source : List Char) : Except ParseError (List (Gate Float)) := do
  program (← located (lexemes source))

/-- The gates of a source. -/
def parse (source : String) : Except ParseError (List (Gate Float)) := parseChars source.toList

/-- The circuit of a source on a register of the given width. -/
def parseCircuit (source : String) (width : Nat) : Except ParseError (Circuit Float) := do
  match Circuit.ofGates width (← parse source) with
  | .ok c => return c
  | .error e => throw (.circuit e)

/-! ## Printing -/

/-- The characters of gates, separated by commas; `[]` when there are none. -/
def listChars : List (Gate Float) → List Char
  | [] => ['[', ']']
  | [g] => g.chars
  | g :: gs => g.chars ++ ',' :: ' ' :: listChars gs

def printChars (gates : List (Gate Float)) : Except PrintError (List Char) :=
  match gates.find? Gate.isGeneral with
  | some g => .error (.unwritable g.name)
  | none => .ok (listChars gates)

def print (gates : List (Gate Float)) : Except PrintError String :=
  (printChars gates).map .ofList

def printCircuit (c : Circuit Float) : Except PrintError String := print c.gates

end RotationCircuits.Text
