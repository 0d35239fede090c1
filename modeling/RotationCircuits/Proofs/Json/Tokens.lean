import RotationCircuits.Json.Reader
import RotationCircuits.Json.Writer
import RotationCircuits.Proofs.Decimal.Value

/-!
# Numbers and strings in JSON

A number is read back in front of any rest that does not continue it (`number?_chars`), and a string in front of any rest at
all (`string?_quote`). The reader puts decimals into normal form, so only those that are in normal form come back unchanged.
-/

namespace RotationCircuits.Json

open Decimal (isDigit IsWhole)

variable {rest : List Char}

/-! ## Parts of a number -/

theorem whole?_append {whole : List Char} (hwhole : IsWhole whole) (hrest : ∀ c ∈ rest.head?, isDigit c = false) :
    whole? (whole ++ rest) = some (whole, rest) := by
  obtain ⟨htake, hdrop⟩ := Decimal.cut_append hwhole.digit rest hrest
  obtain ⟨c, cs, rfl⟩ := List.exists_cons_of_ne_nil hwhole.ne_nil
  by_cases hzero : c = '0'
  · obtain ⟨-, rfl⟩ := List.cons_eq_cons.1 (hwhole.zero (by rw [hzero]; rfl))
    rw [hzero]
    rfl
  · rw [whole?, htake, hdrop, if_neg hwhole.ne_nil]
    rintro cs' heq
    exact hzero (List.cons_eq_cons.1 heq).1

theorem fraction?_point {ds : List Char} (hne : ds ≠ []) (hds : ∀ c ∈ ds, isDigit c = true)
    (hrest : ∀ c ∈ rest.head?, isDigit c = false) : fraction? ('.' :: (ds ++ rest)) = some (ds, rest) := by
  obtain ⟨htake, hdrop⟩ := Decimal.cut_append hds rest hrest
  rw [fraction?, htake, hdrop, if_neg hne]

theorem fraction?_eq_none (hrest : ∀ c ∈ rest.head?, c ≠ '.') : fraction? rest = none := by
  unfold fraction?
  split
  · exact absurd rfl (hrest _ rfl)
  · rfl

/-- An exponent with its sign. -/
theorem exponent?_power (power : Int) (hrest : ∀ c ∈ rest.head?, isDigit c = false) :
    ∃ covered, Decimal.exponent?
      ('e' :: ((if power < 0 then ['-'] else ['+']) ++ (Decimal.digits power.natAbs ++ rest))) =
        some (power, covered, rest) := by
  obtain ⟨n, hn⟩ : ∃ n, n = power.natAbs := ⟨_, rfl⟩
  obtain ⟨htake, hdrop⟩ := Decimal.cut_append (fun c => Decimal.isDigit_of_mem_digits (n := n)) rest hrest
  have hvalue := Decimal.ofDigits_digits n
  have hne := Decimal.digits_ne_nil n
  rw [← hn]
  by_cases hneg : power < 0
  · have hpower : -(n : Int) = power := by omega
    simp [Decimal.exponent?, Decimal.sign, hneg, htake, hdrop, hvalue, hne, hpower]
  · have hpower : (n : Int) = power := by omega
    simp [Decimal.exponent?, Decimal.sign, hneg, htake, hdrop, hvalue, hne, hpower]

/-! ## Numbers -/

/-- What follows does not continue a number. -/
def Ends (rest : List Char) : Prop := ∀ c ∈ rest.head?, isDigit c = false ∧ c ≠ '.' ∧ c ≠ 'e' ∧ c ≠ 'E'

theorem ends_nil : Ends [] := by simp [Ends]

theorem ends_cons {c : Char} (h : c = ',' ∨ c = ']' ∨ c = '\x7d') : Ends (c :: rest) := by
  intro d hd
  obtain rfl : c = d := by simpa using hd
  rcases h with rfl | rfl | rfl <;> decide

/-- The writer keeps a number as it is, since a decimal is in normal form. -/
def Number.IsNormal : Number → Prop
  | integer .. => True
  | decimal _ d => d.IsNormal

section Magnitude

variable {whole fraction : List Char} (negative : Bool) (hwhole : IsWhole whole)

include hwhole

theorem magnitude?_integer (hrest : Ends rest) :
    magnitude? negative (whole ++ rest) = some (.integer negative (Decimal.ofDigits whole), rest) := by
  have hread := whole?_append hwhole fun c hc => (hrest c hc).1
  have hfraction := fraction?_eq_none fun c hc => (hrest c hc).2.1
  have hexponent := Decimal.exponent?_eq_none fun c hc => (hrest c hc).2.2
  simp [magnitude?, hread, hfraction, hexponent]

theorem magnitude?_point (hne : fraction ≠ []) (hfraction : ∀ c ∈ fraction, isDigit c = true) (hrest : Ends rest) :
    magnitude? negative (whole ++ '.' :: (fraction ++ rest)) =
      some (.decimal negative (Decimal.ofParts whole fraction 0).normalize, rest) := by
  have hread : whole? (whole ++ '.' :: (fraction ++ rest)) = some (whole, '.' :: (fraction ++ rest)) :=
    whole?_append hwhole (by simp [isDigit])
  have hpoint := fraction?_point hne hfraction fun c hc => (hrest c hc).1
  have hexponent := Decimal.exponent?_eq_none fun c hc => (hrest c hc).2.2
  simp [magnitude?, hread, hpoint, hexponent]

variable {power : Int} {tail covered : List Char}

theorem magnitude?_exponent (hexponent : Decimal.exponent? ('e' :: tail) = some (power, covered, rest)) :
    magnitude? negative (whole ++ 'e' :: tail) =
      some (.decimal negative (Decimal.ofParts whole [] power).normalize, rest) := by
  have hread : whole? (whole ++ 'e' :: tail) = some (whole, 'e' :: tail) := whole?_append hwhole (by simp [isDigit])
  have hnone : fraction? ('e' :: tail) = none := fraction?_eq_none (by simp)
  simp [magnitude?, hread, hnone, hexponent]

theorem magnitude?_point_exponent (hne : fraction ≠ []) (hfraction : ∀ c ∈ fraction, isDigit c = true)
    (hexponent : Decimal.exponent? ('e' :: tail) = some (power, covered, rest)) :
    magnitude? negative (whole ++ '.' :: (fraction ++ 'e' :: tail)) =
      some (.decimal negative (Decimal.ofParts whole fraction power).normalize, rest) := by
  have hread : whole? (whole ++ '.' :: (fraction ++ 'e' :: tail)) = some (whole, '.' :: (fraction ++ 'e' :: tail)) :=
    whole?_append hwhole (by simp [isDigit])
  have hpoint : fraction? ('.' :: (fraction ++ 'e' :: tail)) = some (fraction, 'e' :: tail) :=
    fraction?_point hne hfraction (by simp [isDigit])
  simp [magnitude?, hread, hpoint, hexponent]

end Magnitude

theorem magnitude?_scientific (negative : Bool) (d : Decimal) (hrest : Ends rest) :
    magnitude? negative (d.scientific ['+'] ++ rest) = some (.decimal negative d.normalize, rest) := by
  obtain ⟨c, cs, hds⟩ := List.exists_cons_of_ne_nil (Decimal.digits_ne_nil d.significand)
  have hdigits : ∀ e ∈ c :: cs, isDigit e = true := fun e he => Decimal.isDigit_of_mem_digits (hds ▸ he)
  rw [List.forall_mem_cons] at hdigits
  have hwhole : IsWhole [c] := ⟨by simp, by simpa using hdigits.1, by simp⟩
  have hparts : Decimal.ofParts [c] cs (d.exponent + cs.length) = d := by
    have hsignificand := Decimal.ofDigits_digits d.significand
    rw [hds] at hsignificand
    simp [Decimal.ofParts, hsignificand]
  obtain ⟨covered, hexponent⟩ := exponent?_power (d.exponent + cs.length) fun c hc => (hrest c hc).1
  by_cases hcs : cs = []
  · subst hcs
    have hread := magnitude?_exponent negative hwhole hexponent
    rw [hparts] at hread
    simpa [Decimal.scientific, hds] using hread
  · have hread := magnitude?_point_exponent negative hwhole hcs hdigits.2 hexponent
    rw [hparts] at hread
    simpa [Decimal.scientific, hds, hcs] using hread

/-- A decimal in normal form is read back from either notation. -/
theorem magnitude?_decimalChars (negative : Bool) {d : Decimal} (hd : d.IsNormal) (hrest : Ends rest) :
    magnitude? negative (decimalChars d ++ rest) = some (.decimal negative d, rest) := by
  have hnormal := hd.normalize_eq
  unfold decimalChars
  dsimp only
  split
  · split
    · next hexponent =>
      -- The zero after the point is read as part of the fraction.
      obtain ⟨whole, hwhole, hvalue, hform⟩ := Decimal.exists_positional_of_nonneg hexponent
      have hzero : ∀ c ∈ ['0'], isDigit c = true := by simp [isDigit]
      have hread := magnitude?_point negative hwhole (by simp) hzero hrest
      rw [Decimal.normalize_eq_of_value_eq ((Decimal.value_ofParts_zero whole).trans hvalue), hnormal] at hread
      simpa [hform] using hread
    · next hexponent =>
      obtain ⟨whole, fraction, hwhole, hne, hfraction, hvalue, hform⟩ :=
        Decimal.exists_positional_of_neg (Int.not_le.1 hexponent)
      have hread := magnitude?_point negative hwhole hne hfraction hrest
      rw [Decimal.normalize_eq_of_value_eq hvalue, hnormal] at hread
      simpa [hform] using hread
  · rw [magnitude?_scientific negative d hrest, hnormal]

/-- A number starts with its sign or a digit. -/
theorem head_of_number? {cs : List Char} {n : Number} (h : number? cs = some (n, rest)) :
    ∃ c cs', cs = c :: cs' ∧ (c = '-' ∨ isDigit c = true) := by
  cases cs with
  | nil => simp [number?, magnitude?, whole?] at h
  | cons c cs =>
    refine ⟨c, cs, rfl, or_iff_not_imp_left.2 fun hsign => ?_⟩
    by_contra hdigit
    have hzero : c ≠ '0' := by
      rintro rfl
      exact hdigit rfl
    simp [number?, magnitude?, whole?, hsign, hzero, hdigit] at h

theorem number?_of_magnitude? {cs : List Char} {n : Number} (h : magnitude? false cs = some (n, rest)) :
    number? cs = some (n, rest) := by
  unfold number?
  split
  · simp [magnitude?, whole?, isDigit] at h
  · exact h

theorem number?_chars {n : Number} (hn : n.IsNormal) (hrest : Ends rest) : number? (n.chars ++ rest) = some (n, rest) := by
  cases n with
  | integer negative m =>
    have hread := magnitude?_integer negative (Decimal.isWhole_digits m) hrest
    rw [Decimal.ofDigits_digits] at hread
    cases negative with
    | true => exact hread
    | false => exact number?_of_magnitude? hread
  | decimal negative d =>
    have hread := magnitude?_decimalChars negative hn hrest
    cases negative with
    | true => exact hread
    | false => exact number?_of_magnitude? hread

/-! ## Strings -/

/-- The piece stands for a character by itself: as this character, or as the unit of a control character. -/
def Piece.Denotes : Piece → Char → Prop
  | char d, c => d = c
  | code n, c => n = c.toNat ∧ n < 0x20

/-- A piece in front of those that follow. -/
def Piece.before (p : Piece) (r : Option (List Piece × List Char)) : Option (List Piece × List Char) :=
  r.map fun (ps, rest) => (p :: ps, rest)

theorem pieces?_letter {e c : Char} (he : unescape? e = some c) (cs : List Char) :
    pieces? ('\\' :: e :: cs) = (Piece.char c).before (pieces? cs) := by
  have hu : e ≠ 'u' := by
    rintro rfl
    simp [unescape?] at he
  rw [pieces?, he]
  · cases pieces? cs <;> rfl
  · rintro a b c d cs' rfl
    exact absurd rfl hu

theorem pieces?_unit {n : Nat} (hn : n < 0x20) (cs : List Char) :
    pieces? ('\\' :: 'u' :: '0' :: '0' :: hexDigit (n / 16) :: hexDigit (n % 16) :: cs) =
      (Piece.code n).before (pieces? cs) := by
  have hcode : code? '0' '0' (hexDigit (n / 16)) (hexDigit (n % 16)) = some n := by
    revert n
    decide
  rw [pieces?, hcode]
  cases pieces? cs <;> rfl

theorem pieces?_plain {c : Char} (hquote : c ≠ '\"') (hslash : c ≠ '\\') (hlow : ¬ c.toNat < 0x20) (cs : List Char) :
    pieces? (c :: cs) = (Piece.char c).before (pieces? cs) := by
  rw [pieces?, if_neg (by simp [hlow, hslash])]
  · cases pieces? cs <;> rfl
  all_goals simp_all

/-- A character is escaped by a letter, written as the unit of a control character, or left as it is. -/
theorem escape_cases (c : Char) :
    (∃ e, unescape? e = some c ∧ escape c = ['\\', e]) ∨
      (c.toNat < 0x20 ∧ escape c = ['\\', 'u', '0', '0', hexDigit (c.toNat / 16), hexDigit (c.toNat % 16)]) ∨
      (c ≠ '\"' ∧ c ≠ '\\' ∧ ¬ c.toNat < 0x20 ∧ escape c = [c]) := by
  unfold escape
  split_ifs <;> simp_all [unescape?]

/-- A character is read back as a piece of its own, whatever follows. -/
theorem exists_piece (c : Char) :
    ∃ p : Piece, p.Denotes c ∧ ∀ cs, pieces? (escape c ++ cs) = p.before (pieces? cs) := by
  rcases escape_cases c with ⟨e, he, hform⟩ | ⟨hlow, hform⟩ | ⟨hquote, hslash, hlow, hform⟩
  · rw [hform]
    exact ⟨.char c, rfl, pieces?_letter he⟩
  · rw [hform]
    exact ⟨.code c.toNat, ⟨rfl, hlow⟩, pieces?_unit hlow⟩
  · rw [hform]
    exact ⟨.char c, rfl, pieces?_plain hquote hslash hlow⟩

theorem exists_pieces (cs rest : List Char) :
    ∃ ps, List.Forall₂ Piece.Denotes ps cs ∧ pieces? (cs.flatMap escape ++ '\"' :: rest) = some (ps, rest) := by
  induction cs with
  | nil => exact ⟨[], .nil, by rw [List.flatMap_nil, List.nil_append, pieces?]⟩
  | cons c cs ih =>
    obtain ⟨p, hp, hread⟩ := exists_piece c
    obtain ⟨ps, hps, hmore⟩ := ih
    refine ⟨p :: ps, .cons hp hps, ?_⟩
    rw [List.flatMap_cons, List.append_assoc, hread, hmore]
    rfl

/-- Pieces that stand for characters by themselves spell these characters; no control character is half of a pair. -/
theorem textOf?_of_denotes {ps : List Piece} {cs : List Char} (h : List.Forall₂ Piece.Denotes ps cs) :
    textOf? ps = some cs := by
  induction h with
  | nil => rfl
  | @cons p c ps cs hp hps ih =>
    cases p with
    | char d =>
      obtain rfl : d = c := hp
      rw [textOf?, ih]
      rfl
    | code n =>
      obtain ⟨rfl, hlow⟩ := hp
      have hhigh : isHigh c.toNat = false := by simp [isHigh]; omega
      have hlower : isLow c.toNat = false := by simp [isLow]; omega
      cases ps with
      | nil => simp_all [textOf?]
      | cons p' ps =>
        cases p' with
        | char d => simp_all [textOf?]
        | code m => simp_all [textOf?]

/-- **Strings are read back.** -/
theorem string?_quote (s : String) (rest : List Char) :
    string? (s.toList.flatMap escape ++ '\"' :: rest) = some (some s, rest) := by
  obtain ⟨ps, hps, hread⟩ := exists_pieces s.toList rest
  rw [string?, hread]
  simp [textOf?_of_denotes hps]

end RotationCircuits.Json
