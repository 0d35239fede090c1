/-!
# Decimal numbers

A decimal is a significand and a power of ten. Reading it as a double goes through its normal form, in which the
significand has no factor of ten, so two spellings of one number are read alike.
-/

namespace RotationCircuits

/-- The non-negative number `significand * 10 ^ exponent`. -/
structure Decimal where
  significand : Nat
  exponent : Int
deriving DecidableEq, Repr

namespace Decimal

/-- Moves at most `count` factors of ten from the significand to the exponent. -/
def strip : Nat → Nat → Int → Decimal
  | 0, m, e => ⟨m, e⟩
  | count + 1, m, e => if m % 10 = 0 then strip count (m / 10) (e + 1) else ⟨m, e⟩

/-- The spelling without factors of ten in the significand; zero has exponent zero. -/
def normalize (d : Decimal) : Decimal :=
  if d.significand = 0 then ⟨0, 0⟩ else strip d.significand.log2 d.significand d.exponent

/-- The double nearest to the number, ties to even; infinite beyond the largest double. -/
def toFloat (d : Decimal) : Float :=
  .ofModel (.ofScientific d.normalize.significand d.normalize.exponent)

/-- Is this a decimal digit? -/
def isDigit (c : Char) : Bool := '0' ≤ c && c ≤ '9'

/-- The digit that a decimal digit character stands for. -/
def digitValue (c : Char) : Nat := c.toNat - '0'.toNat

/-- The number that a list of decimal digits spells. -/
def ofDigits (digits : List Char) : Nat := digits.foldl (fun n c => 10 * n + digitValue c) 0

/-- The decimal digits of a number, without leading zeros. -/
def digits (n : Nat) : List Char := Nat.toDigits 10 n

/-- The decimal spelled by integer digits, fraction digits and a power of ten. -/
def ofParts (whole fraction : List Char) (power : Int) : Decimal :=
  ⟨ofDigits (whole ++ fraction), power - fraction.length⟩

/-- The sign at the front of an exponent, if there is one, and what follows. -/
def sign : List Char → List Char × List Char
  | '+' :: cs => (['+'], cs)
  | '-' :: cs => (['-'], cs)
  | cs => ([], cs)

/-- An exponent at the front of the input: its value, its characters and what follows. At least one digit is needed. -/
def exponent? : List Char → Option (Int × List Char × List Char)
  | [] => none
  | e :: cs =>
    let (sign, body) := sign cs
    let ds := body.takeWhile isDigit
    if (e = 'e' ∨ e = 'E') ∧ ds ≠ [] then
      let n : Int := ofDigits ds
      some (if sign = ['-'] then -n else n, e :: (sign ++ ds), body.dropWhile isDigit)
    else none

theorem sign_append (cs : List Char) : (sign cs).1 ++ (sign cs).2 = cs := by
  unfold sign
  split <;> rfl

theorem exponent?_append {cs covered rest : List Char} {n : Int} (h : exponent? cs = some (n, covered, rest)) :
    covered ++ rest = cs := by
  cases cs with
  | nil => simp [exponent?] at h
  | cons e cs =>
    simp only [exponent?] at h
    split at h
    · obtain ⟨-, rfl, rfl⟩ := by simpa using h
      simp [List.takeWhile_append_dropWhile, sign_append]
    · cases h

theorem exponent?_eq_none {rest : List Char} (h : ∀ c ∈ rest.head?, c ≠ 'e' ∧ c ≠ 'E') : exponent? rest = none := by
  cases rest with
  | nil => rfl
  | cons c cs => simp [exponent?, h c rfl]

/-- Characters that pass a test are cut off in front of a rest whose first character fails it. -/
theorem cut_append {p : Char → Bool} {front : List Char} (hfront : ∀ c ∈ front, p c = true) (rest : List Char)
    (hrest : ∀ c ∈ rest.head?, p c = false) :
    (front ++ rest).takeWhile p = front ∧ (front ++ rest).dropWhile p = rest := by
  rw [List.takeWhile_append_of_pos hfront, List.dropWhile_append_of_pos hfront]
  cases rest with
  | nil => simp
  | cons c cs => simp [hrest c rfl]

end Decimal

end RotationCircuits
