import RotationCircuits.Text.Lexer

/-!
# Lexing

`Lexes cs ts` says that `cs` is cut into the tokens `ts` and nothing else, wherever `cs` starts. There is one rule for
blanks and one for each kind of token: it is cut off in front of a rest that does not continue it.
-/

namespace RotationCircuits.Text

open Decimal (isDigit exponent?)

/-! ## Steps of the lexer -/

/-- A step covers at least one character. -/
theorem length_rest_scan_le (c : Char) (cs : List Char) : (scan c cs).rest.length ≤ cs.length := by
  have hcut := congrArg List.length (scan_append c cs)
  have hcovered : (scan c cs).covered ≠ [] := by
    unfold scan
    split
    · next hdigit =>
      have hwhole : (c :: cs).takeWhile isDigit ≠ [] := by simp [hdigit]
      unfold scanNumber
      split
      · dsimp only
        split <;> simp [hwhole]
      · split <;> simp [hwhole]
    · split
      · next hname => simp [isNamePart, hname]
      · simp
  have := List.length_pos_iff.2 hcovered
  simp only [List.length_append, List.length_cons] at hcut
  omega

/-- The characters `cs` are cut into the tokens `ts`, with blanks between them. -/
def Lexes (cs : List Char) (ts : List Token) : Prop :=
  ∀ fuel start, cs.length ≤ fuel → (lexemesFrom fuel start cs).map Lexeme.token = ts.map .ok

variable {c : Char} {cs rest : List Char} {t : Token} {ts : List Token}

theorem Lexes.map_lexemes (h : Lexes cs ts) : (lexemes cs).map Lexeme.token = ts.map .ok := h _ 0 (Nat.le_refl _)

theorem lexes_nil : Lexes [] [] := by
  intro fuel start _
  cases fuel <;> rfl

theorem Lexes.blank (hc : isBlank c = true) (h : Lexes cs ts) : Lexes (c :: cs) ts := by
  intro fuel start hfuel
  cases fuel with
  | zero => simp at hfuel
  | succ fuel =>
    rw [lexemesFrom, if_pos hc]
    exact h fuel _ (by simpa using hfuel)

theorem Lexes.scan (covered : List Char) (hc : isBlank c = false) (hscan : scan c cs = ⟨some t, covered, rest⟩)
    (h : Lexes rest ts) : Lexes (c :: cs) (t :: ts) := by
  intro fuel start hfuel
  cases fuel with
  | zero => simp at hfuel
  | succ fuel =>
    have hlength := length_rest_scan_le c cs
    rw [hscan] at hlength
    simp only [List.length_cons] at hfuel hlength
    simp only [lexemesFrom, hc, hscan, List.map_cons]
    exact congrArg _ (h fuel _ (by omega))

/-! ## Classes of characters -/

theorem isBlank_iff : isBlank c = true ↔ c = ' ' ∨ c = '\t' ∨ c = '\r' ∨ c = '\n' := by simp [isBlank, or_assoc]

theorem isBlank_eq_false_of_isNamePart (h : isNamePart c = true) : isBlank c = false := by
  rw [← Bool.not_eq_true]
  intro hblank
  rcases isBlank_iff.1 hblank with rfl | rfl | rfl | rfl <;> exact absurd h (by decide)

theorem isDigit_eq_false_of_isNameStart (h : isNameStart c = true) : isDigit c = false := by
  rw [← Bool.not_eq_true]
  intro hdigit
  simp only [isNameStart, isDigit, Bool.or_eq_true, Bool.and_eq_true, decide_eq_true_eq, Char.le_def,
    UInt32.le_iff_toNat_le] at h hdigit
  rcases h with (h | h) | rfl
  · exact absurd (Nat.le_trans h.1 hdigit.2) (by decide)
  · exact absurd (Nat.le_trans h.1 hdigit.2) (by decide)
  · contradiction

/-- Punctuation is neither blank nor part of a number or a name. -/
theorem class_of_punctuation? (h : punctuation? c = some t) :
    isBlank c = false ∧ isDigit c = false ∧ isNameStart c = false := by
  have hc : c = '+' ∨ c = '-' ∨ c = '(' ∨ c = ')' ∨ c = '[' ∨ c = ']' ∨ c = ',' := by grind [punctuation?]
  rcases hc with rfl | rfl | rfl | rfl | rfl | rfl | rfl <;> exact ⟨rfl, rfl, rfl⟩

/-! ## Tokens in front of the rest -/

theorem Lexes.punctuation (hc : punctuation? c = some t) (h : Lexes cs ts) : Lexes (c :: cs) (t :: ts) := by
  obtain ⟨hblank, hdigit, hname⟩ := class_of_punctuation? hc
  refine Lexes.scan [c] hblank ?_ h
  simp [Text.scan, hdigit, hname, hc]

/-- A number is lexed as `scanNumber` says. -/
theorem Lexes.number {covered : List Char} (hc : isDigit c = true)
    (hscan : scanNumber (c :: cs) = ⟨some t, covered, rest⟩) (h : Lexes rest ts) : Lexes (c :: cs) (t :: ts) := by
  refine Lexes.scan covered (isBlank_eq_false_of_isNamePart (by simp [isNamePart, hc])) ?_ h
  rw [Text.scan, if_pos hc, hscan]

section Ended

-- No name is continued by `e`, and no number either, unless `e` is a point.
variable {e : Char} (he : isNamePart e = false)

include he

theorem Lexes.name (hc : isNameStart c = true) (hcs : ∀ d ∈ cs, isNamePart d = true) (h : Lexes (e :: rest) ts) :
    Lexes (c :: (cs ++ e :: rest)) (nameToken (c :: cs) :: ts) := by
  have hpart : ∀ d ∈ c :: cs, isNamePart d = true := by simpa [isNamePart, hc] using hcs
  have hdigit := isDigit_eq_false_of_isNameStart hc
  obtain ⟨htake, hdrop⟩ := Decimal.cut_append hpart (e :: rest) (by simpa using he)
  refine Lexes.scan (c :: cs) (isBlank_eq_false_of_isNamePart (hpart c (by simp))) ?_ h
  simp only [Text.scan, hdigit, hc]
  rw [← List.cons_append, htake, hdrop]
  rfl

/-- Only an `e`, which can be part of a name, starts an exponent. -/
theorem exponent?_end : exponent? (e :: rest) = none := by
  refine Decimal.exponent?_eq_none fun c hc => ?_
  obtain rfl : e = c := by simpa using hc
  constructor <;> (rintro rfl; cases he)

theorem isDigit_end : ∀ c ∈ (e :: rest).head?, isDigit c = false := by
  simp only [isNamePart, Bool.or_eq_false_iff] at he
  simpa using he.2

theorem scanNumber_integer {ds : List Char} (hds : ∀ d ∈ ds, isDigit d = true) (hpoint : e ≠ '.') :
    scanNumber (ds ++ e :: rest) = ⟨some (.integer ds), ds, e :: rest⟩ := by
  obtain ⟨htake, hdrop⟩ := Decimal.cut_append hds (e :: rest) (isDigit_end he)
  simp only [scanNumber, htake, hdrop]
  split
  · next heq => simp_all
  · rw [exponent?_end he]

theorem Lexes.integer {ds : List Char} (hne : ds ≠ []) (hds : ∀ d ∈ ds, isDigit d = true) (hpoint : e ≠ '.')
    (h : Lexes (e :: rest) ts) : Lexes (ds ++ e :: rest) (.integer ds :: ts) := by
  obtain ⟨d, ds, rfl⟩ := List.exists_cons_of_ne_nil hne
  exact Lexes.number (hds d (by simp)) (scanNumber_integer he hds hpoint) h

theorem scanNumber_decimal {whole fraction : List Char} (hwhole : ∀ d ∈ whole, isDigit d = true)
    (hfraction : ∀ d ∈ fraction, isDigit d = true) :
    scanNumber (whole ++ '.' :: (fraction ++ e :: rest)) =
      ⟨some (.decimal (Decimal.ofParts whole fraction 0).toFloat), whole ++ '.' :: fraction, e :: rest⟩ := by
  obtain ⟨htake, hdrop⟩ := Decimal.cut_append hwhole ('.' :: (fraction ++ e :: rest)) (by simp [isDigit])
  obtain ⟨htake', hdrop'⟩ := Decimal.cut_append hfraction (e :: rest) (isDigit_end he)
  simp only [scanNumber, htake, hdrop, htake', hdrop', exponent?_end he]

theorem Lexes.decimal {whole fraction : List Char} (hne : whole ≠ []) (hwhole : ∀ d ∈ whole, isDigit d = true)
    (hfraction : ∀ d ∈ fraction, isDigit d = true) (h : Lexes (e :: rest) ts) :
    Lexes (whole ++ '.' :: (fraction ++ e :: rest)) (.decimal (Decimal.ofParts whole fraction 0).toFloat :: ts) := by
  obtain ⟨d, ds, rfl⟩ := List.exists_cons_of_ne_nil hne
  exact Lexes.number (hwhole d (by simp)) (scanNumber_decimal he hwhole hfraction) h

end Ended

end RotationCircuits.Text
