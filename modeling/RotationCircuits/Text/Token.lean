import RotationCircuits.Decimal.Layout
import RotationCircuits.Qubit

/-!
# Tokens of circuit notation

A token keeps what later stages need of it: a literal with a fraction or an exponent its value, an integer literal its
digits, a name its characters.
-/

namespace RotationCircuits.Text

/-- The characters that separate tokens, in circuit notation and in JSON alike: space, tab, carriage return and
newline. -/
def isBlank (c : Char) : Bool := c = ' ' || c = '\t' || c = '\r' || c = '\n'

/-- A token of circuit notation. -/
inductive Token where
  /-- The name of a rotation: `X`, `Y` or `Z`. -/
  | axis (axis : Axis)
  /-- The gate name `CX`. -/
  | cx
  /-- A literal with a point or an exponent, by value. -/
  | decimal (value : Float)
  /-- A literal of digits only, as written. -/
  | integer (digits : List Char)
  /-- Any other name. -/
  | identifier (name : List Char)
  | plus
  | minus
  | leftParen
  | rightParen
  | leftBracket
  | rightBracket
  | comma
deriving DecidableEq, Repr

namespace Token

/-- The characters of a token in messages. A decimal literal is shown by its value, everything else as written. -/
def chars : Token → List Char
  | axis a => [a.letter]
  | cx => ['C', 'X']
  | decimal v => Decimal.plainChars v
  | integer ds => ds
  | identifier n => n
  | plus => ['+']
  | minus => ['-']
  | leftParen => ['(']
  | rightParen => [')']
  | leftBracket => ['[']
  | rightBracket => [']']
  | comma => [',']

def text (t : Token) : String := .ofList t.chars

end Token

end RotationCircuits.Text
