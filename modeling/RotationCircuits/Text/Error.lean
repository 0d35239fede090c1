import RotationCircuits.Gate.Text
import RotationCircuits.Text.Token

/-!
# Errors in circuit notation
-/

namespace RotationCircuits.Text

/-- What the parser was looking for. -/
inductive Expected where
  | token (token : Token)
  | gate
  | qubitIndex
  | angle
  | endOfInput
deriving DecidableEq, Repr

/-- Why a source is not a circuit. Positions are byte offsets. -/
inductive ParseError where
  /-- A character that starts no token. -/
  | invalidCharacter (position : Nat) (char : Char)
  /-- A token that cannot stand where it stands, and its text. -/
  | unexpectedToken (position : Nat) (expected : Expected) (found : String)
  /-- The source ends too early. -/
  | unexpectedEnd (expected : Expected)
  /-- A name that is no gate. -/
  | unknownGate (name : List Char)
  /-- An index of more than 32 bits. -/
  | invalidIndex (digits : List Char)
  /-- The gates do not make a circuit. -/
  | circuit (error : CircuitError Float)
deriving DecidableEq, Repr

/-- What was looked for, when another token was found. -/
def Expected.atToken : Expected → String
  | token t => t.text
  | gate => "gate name"
  | qubitIndex => "qubit index"
  | angle => "angle"
  | endOfInput => "end of input"

/-- What was looked for, when the source ended. -/
def Expected.atEnd : Expected → String
  | gate => "gate"
  | e => e.atToken

def ParseError.message : ParseError → String
  | invalidCharacter p c => s!"Lexer error at position {p}: Invalid token: '{c}'"
  | unexpectedToken p e f => s!"Unexpected token at position {p}: expected {e.atToken}, found {f}"
  | unexpectedEnd e => s!"Unexpected end of input: expected {e.atEnd}"
  | unknownGate n => s!"Unknown gate: {String.ofList n}"
  | invalidIndex ds => s!"Invalid qubit index: {String.ofList ds}"
  | circuit e => s!"Circuit error: {e.message}"

/-- Why gates cannot be written in circuit notation: it has no form for the general gate. -/
inductive PrintError where
  | unwritable (gate : String)
deriving DecidableEq, Repr

def PrintError.message : PrintError → String
  | unwritable gate => s!"Gate '{gate}' cannot be written in circuit notation"

end RotationCircuits.Text
