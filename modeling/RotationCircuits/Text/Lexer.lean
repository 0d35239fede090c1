import RotationCircuits.Text.Token

/-!
# Lexical analysis

The source is cut into the longest tokens from the left, with blanks skipped between them. A character that starts no
token is reported as a lexeme of its own, so every character of the source is a blank or lies in exactly one lexeme.
-/

namespace RotationCircuits.Text

open Decimal (isDigit exponent?)

/-- Characters that start a name: letters and the underscore. -/
def isNameStart (c : Char) : Bool := ('a' ≤ c && c ≤ 'z') || ('A' ≤ c && c ≤ 'Z') || c = '_'

def isNamePart (c : Char) : Bool := isNameStart c || isDigit c

/-- One step of the lexer: a token, or nothing if its one character starts none; the characters it covers; and what
follows them. -/
structure Scan where
  token : Option Token
  covered : List Char
  rest : List Char
deriving DecidableEq, Repr

/-- The longest number at the front of an input that starts with a digit. A point or an exponent makes it a decimal
literal; an `e` that is not followed by digits stays behind. -/
def scanNumber (cs : List Char) : Scan :=
  let whole := cs.takeWhile isDigit
  match cs.dropWhile isDigit with
  | '.' :: rest =>
    let fraction := rest.takeWhile isDigit
    let rest := rest.dropWhile isDigit
    match exponent? rest with
    | some (power, covered, rest) =>
      ⟨some (.decimal (Decimal.ofParts whole fraction power).toFloat), whole ++ '.' :: (fraction ++ covered), rest⟩
    | none => ⟨some (.decimal (Decimal.ofParts whole fraction 0).toFloat), whole ++ '.' :: fraction, rest⟩
  | rest =>
    match exponent? rest with
    | some (power, covered, rest) =>
      ⟨some (.decimal (Decimal.ofParts whole [] power).toFloat), whole ++ covered, rest⟩
    | none => ⟨some (.integer whole), whole, rest⟩

theorem scanNumber_append (cs : List Char) : (scanNumber cs).covered ++ (scanNumber cs).rest = cs := by
  have hcut := List.takeWhile_append_dropWhile (p := isDigit) (l := cs)
  unfold scanNumber
  split
  · rename_i rest hrest
    rw [hrest] at hcut
    have hfraction := List.takeWhile_append_dropWhile (p := isDigit) (l := rest)
    dsimp only
    split
    · rename_i h
      simp [Decimal.exponent?_append h, hfraction, hcut]
    · simp [hfraction, hcut]
  · split
    · rename_i h
      simp [Decimal.exponent?_append h, hcut]
    · exact hcut

def nameToken (name : List Char) : Token :=
  if name = ['X'] then .axis .x
  else if name = ['Y'] then .axis .y
  else if name = ['Z'] then .axis .z
  else if name = ['C', 'X'] then .cx
  else .identifier name

/-- The token of a punctuation character. -/
def punctuation? (c : Char) : Option Token :=
  if c = '+' then some .plus
  else if c = '-' then some .minus
  else if c = '(' then some .leftParen
  else if c = ')' then some .rightParen
  else if c = '[' then some .leftBracket
  else if c = ']' then some .rightBracket
  else if c = ',' then some .comma
  else none

/-- The longest token at the front of `c :: cs`, where `c` is not blank. -/
def scan (c : Char) (cs : List Char) : Scan :=
  if isDigit c then scanNumber (c :: cs)
  else if isNameStart c then
    let name := (c :: cs).takeWhile isNamePart
    ⟨some (nameToken name), name, (c :: cs).dropWhile isNamePart⟩
  else ⟨punctuation? c, [c], cs⟩

/-- The lexer neither drops nor adds characters. -/
theorem scan_append (c : Char) (cs : List Char) : (scan c cs).covered ++ (scan c cs).rest = c :: cs := by
  unfold scan
  split
  · exact scanNumber_append _
  · split
    · exact List.takeWhile_append_dropWhile
    · rfl

/-- A token, or a character that starts none, with the range of bytes it covers in the UTF-8 source. -/
structure Lexeme where
  token : Except Char Token
  start : Nat
  stop : Nat

/-- Number of bytes of the characters in UTF-8. -/
def byteSize : List Char → Nat
  | [] => 0
  | c :: cs => c.utf8Size + byteSize cs

/-- The lexemes of `cs`, which starts at byte `start`; every step covers at least one of the `fuel` characters left. -/
def lexemesFrom : Nat → Nat → List Char → List Lexeme
  | 0, _, _ => []
  | _, _, [] => []
  | fuel + 1, start, c :: cs =>
    if isBlank c then lexemesFrom fuel (start + c.utf8Size) cs
    else
      let s := scan c cs
      let stop := start + byteSize s.covered
      let token := match s.token with
        | some t => .ok t
        | none => .error c
      ⟨token, start, stop⟩ :: lexemesFrom fuel stop s.rest

def lexemes (source : List Char) : List Lexeme := lexemesFrom source.length 0 source

end RotationCircuits.Text
