import RotationCircuits.Proofs.Text.Lexing

/-!
# Words

`Spells cs t` says that the characters `cs` may be written for the token `t`; there is one rule for each pattern. The
patterns overlap: `1`, `1.` and `1.5e3` are words, and `CX` is a gate as well as a name. At each place the lexer takes the
longest word (`spells_scan`, `Spells.isPrefix_covered`), a gate rather than a name (`Spells.token_scan`), and a character
that is the start of no word by itself (`scan_eq_of_token_eq_none`).

No word has a blank in it. So the characters behind a blank never decide how the characters in front of it are read
(`scan_eq_of_isPrefix`), however far the lexer has to look ahead, as in `1e+`.
-/

namespace RotationCircuits.Text

open Decimal (isDigit exponent? ofDigits)

/-! ## Patterns -/

/-- One digit or more. -/
def IsNumeral (cs : List Char) : Prop := cs ≠ [] ∧ ∀ c ∈ cs, isDigit c = true

/-- A power of ten behind a number, and its exponent. -/
inductive Scaling : List Char → Int → Prop where
  | unsigned {e : Char} {ds : List Char} : e = 'e' ∨ e = 'E' → IsNumeral ds → Scaling (e :: ds) (ofDigits ds)
  | plus {e : Char} {ds : List Char} : e = 'e' ∨ e = 'E' → IsNumeral ds → Scaling (e :: '+' :: ds) (ofDigits ds)
  | minus {e : Char} {ds : List Char} : e = 'e' ∨ e = 'E' → IsNumeral ds → Scaling (e :: '-' :: ds) (-ofDigits ds)

/-- The characters may be written for the token. -/
inductive Spells : List Char → Token → Prop where
  | axis (a : Axis) : Spells [a.letter] (.axis a)
  | cx : Spells ['C', 'X'] .cx
  | pointed {whole fraction : List Char} : IsNumeral whole → (∀ d ∈ fraction, isDigit d = true) →
      Spells (whole ++ '.' :: fraction) (.decimal (Decimal.ofParts whole fraction 0).toFloat)
  | pointedScaled {whole fraction scale : List Char} {n : Int} : IsNumeral whole → (∀ d ∈ fraction, isDigit d = true) →
      Scaling scale n →
      Spells (whole ++ '.' :: (fraction ++ scale)) (.decimal (Decimal.ofParts whole fraction n).toFloat)
  | scaled {whole scale : List Char} {n : Int} : IsNumeral whole → Scaling scale n →
      Spells (whole ++ scale) (.decimal (Decimal.ofParts whole [] n).toFloat)
  | integer {ds : List Char} : IsNumeral ds → Spells ds (.integer ds)
  | name {c : Char} {cs : List Char} : isNameStart c = true → (∀ d ∈ cs, isNamePart d = true) →
      Spells (c :: cs) (.identifier (c :: cs))
  | punctuation {c : Char} {t : Token} : punctuation? c = some t → Spells [c] t

variable {c : Char} {cs ds covered rest text more : List Char} {t : Token} {n : Int}

/-- A power of ten continues neither the digits in front of it nor their fraction. -/
theorem Scaling.exists_eq_cons (h : Scaling text n) : ∃ e cs, text = e :: cs ∧ e ≠ '.' ∧ isDigit e = false := by
  have hletter {e : Char} (he : e = 'e' ∨ e = 'E') : e ≠ '.' ∧ isDigit e = false := by
    rcases he with rfl | rfl <;> exact ⟨by decide, rfl⟩
  cases h with
  | unsigned he _ => exact ⟨_, _, rfl, hletter he⟩
  | plus he _ => exact ⟨_, _, rfl, hletter he⟩
  | minus he _ => exact ⟨_, _, rfl, hletter he⟩

/-! ## Blanks are in no word -/

theorem isBlank_eq_false_of_isDigit (h : isDigit c = true) : isBlank c = false :=
  isBlank_eq_false_of_isNamePart (by simp [isNamePart, h])

theorem Scaling.isBlank_eq_false (h : Scaling text n) : ∀ d ∈ text, isBlank d = false := by
  have hletter {e : Char} (he : e = 'e' ∨ e = 'E') : isBlank e = false := by
    rcases he with rfl | rfl <;> rfl
  have hdigits {ds : List Char} (hds : IsNumeral ds) : ∀ d ∈ ds, isBlank d = false :=
    fun d hd => isBlank_eq_false_of_isDigit (hds.2 d hd)
  cases h with
  | unsigned he hds => exact List.forall_mem_cons.2 ⟨hletter he, hdigits hds⟩
  | plus he hds => exact List.forall_mem_cons.2 ⟨hletter he, List.forall_mem_cons.2 ⟨rfl, hdigits hds⟩⟩
  | minus he hds => exact List.forall_mem_cons.2 ⟨hletter he, List.forall_mem_cons.2 ⟨rfl, hdigits hds⟩⟩

theorem Spells.isBlank_eq_false (h : Spells text t) : ∀ d ∈ text, isBlank d = false := by
  have hdigits {ds : List Char} (hds : ∀ d ∈ ds, isDigit d = true) : ∀ d ∈ ds, isBlank d = false :=
    fun d hd => isBlank_eq_false_of_isDigit (hds d hd)
  cases h with
  | axis a => cases a <;> simp [Axis.letter, isBlank]
  | cx => simp [isBlank]
  | pointed hwhole hfraction =>
    exact List.forall_mem_append.2 ⟨hdigits hwhole.2, List.forall_mem_cons.2 ⟨rfl, hdigits hfraction⟩⟩
  | pointedScaled hwhole hfraction hscale =>
    refine List.forall_mem_append.2 ⟨hdigits hwhole.2, List.forall_mem_cons.2 ⟨rfl, ?_⟩⟩
    exact List.forall_mem_append.2 ⟨hdigits hfraction, hscale.isBlank_eq_false⟩
  | scaled hwhole hscale => exact List.forall_mem_append.2 ⟨hdigits hwhole.2, hscale.isBlank_eq_false⟩
  | integer hds => exact hdigits hds.2
  | name hc hcs =>
    refine List.forall_mem_cons.2 ⟨isBlank_eq_false_of_isNamePart (by simp [isNamePart, hc]), ?_⟩
    exact fun d hd => isBlank_eq_false_of_isNamePart (hcs d hd)
  | punctuation hc => exact List.forall_mem_singleton.2 (class_of_punctuation? hc).1

/-! ## The lexer reads a word -/

theorem isNumeral_takeWhile (h : cs.takeWhile isDigit ≠ []) : IsNumeral (cs.takeWhile isDigit) :=
  ⟨h, List.all_eq_true.1 List.all_takeWhile⟩

theorem scaling_of_exponent? (h : exponent? cs = some (n, covered, rest)) : Scaling covered n := by
  cases cs with
  | nil => cases h
  | cons e cs =>
    simp only [exponent?] at h
    split at h
    · next hguard =>
      obtain ⟨he, hds⟩ := hguard
      obtain ⟨rfl, rfl, -⟩ := by simpa using h
      have hnumeral := isNumeral_takeWhile hds
      revert hnumeral
      unfold Decimal.sign
      split
      · exact fun hnumeral => .plus he hnumeral
      · exact fun hnumeral => .minus he hnumeral
      · exact fun hnumeral => .unsigned he hnumeral
    · cases h

theorem spells_scanNumber (h : cs.takeWhile isDigit ≠ []) (ht : (scanNumber cs).token = some t) :
    Spells (scanNumber cs).covered t := by
  have hwhole := isNumeral_takeWhile h
  unfold scanNumber at ht ⊢
  split at ht
  · next rest _ =>
    have hfraction : ∀ d ∈ rest.takeWhile isDigit, isDigit d = true := List.all_eq_true.1 List.all_takeWhile
    dsimp only at ht ⊢
    split at ht
    · next hexponent =>
      cases ht
      exact .pointedScaled hwhole hfraction (scaling_of_exponent? hexponent)
    · cases ht
      exact .pointed hwhole hfraction
  · split at ht
    · next hexponent =>
      cases ht
      exact .scaled hwhole (scaling_of_exponent? hexponent)
    · cases ht
      exact .integer hwhole

theorem spells_nameToken (hc : isNameStart c = true) (hcs : ∀ d ∈ cs, isNamePart d = true) :
    Spells (c :: cs) (nameToken (c :: cs)) := by
  unfold nameToken
  split
  · next h => exact h ▸ .axis .x
  · split
    · next h => exact h ▸ .axis .y
    · split
      · next h => exact h ▸ .axis .z
      · split
        · next h => exact h ▸ .cx
        · exact .name hc hcs

/-- What the lexer covers is a word for its token. -/
theorem spells_scan (h : (scan c cs).token = some t) : Spells (scan c cs).covered t := by
  unfold scan at h ⊢
  split
  · next hdigit =>
    rw [if_pos hdigit] at h
    exact spells_scanNumber (by simp [hdigit]) h
  · next hdigit =>
    rw [if_neg hdigit] at h
    split
    · next hname =>
      rw [if_pos hname] at h
      cases h
      have hpart : ∀ d ∈ cs.takeWhile isNamePart, isNamePart d = true := List.all_eq_true.1 List.all_takeWhile
      have htake : (c :: cs).takeWhile isNamePart = c :: cs.takeWhile isNamePart := by simp [isNamePart, hname]
      simpa only [htake] using spells_nameToken hname hpart
    · next hname =>
      rw [if_neg hname] at h
      exact .punctuation h

/-! ## No longer word is there -/

/-- The scan covers at least `text`, and if it covers no more, then it reads the token `t`. -/
def Scan.Reaches (s : Scan) (text : List Char) (t : Token) : Prop :=
  ∃ extra, s.covered = text ++ extra ∧ (extra = [] → s.token = some t)

theorem exponent?_of_scaling (h : Scaling text n) (more : List Char) :
    ∃ m, exponent? (text ++ more) = some (m, text ++ more.takeWhile isDigit, more.dropWhile isDigit) ∧
      (more.takeWhile isDigit = [] → m = n) := by
  cases h with
  | @unsigned e ds he hds =>
    -- A digit follows the letter, so there is no sign.
    have hsign : Decimal.sign (ds ++ more) = ([], ds ++ more) := by
      obtain ⟨d, ds, rfl⟩ := List.exists_cons_of_ne_nil hds.1
      have hd := hds.2 d (by simp)
      have hplus : d ≠ '+' := by rintro rfl; cases hd
      have hminus : d ≠ '-' := by rintro rfl; cases hd
      unfold Decimal.sign
      split <;> simp_all
    refine ⟨ofDigits (ds ++ more.takeWhile isDigit), ?_, fun hnil => by simp [hnil]⟩
    simp [exponent?, hsign, he, hds.1, List.takeWhile_append_of_pos hds.2, List.dropWhile_append_of_pos hds.2]
  | @plus e ds he hds =>
    refine ⟨ofDigits (ds ++ more.takeWhile isDigit), ?_, fun hnil => by simp [hnil]⟩
    simp [exponent?, Decimal.sign, he, hds.1, List.takeWhile_append_of_pos hds.2, List.dropWhile_append_of_pos hds.2]
  | @minus e ds he hds =>
    refine ⟨-ofDigits (ds ++ more.takeWhile isDigit), ?_, fun hnil => by simp [hnil]⟩
    simp [exponent?, Decimal.sign, he, hds.1, List.takeWhile_append_of_pos hds.2, List.dropWhile_append_of_pos hds.2]

theorem covered_ne_nil_of_exponent? (h : exponent? cs = some (n, covered, rest)) : covered ≠ [] := by
  obtain ⟨e, cs, rfl, -⟩ := (scaling_of_exponent? h).exists_eq_cons
  simp

theorem reaches_integer (h : IsNumeral ds) (more : List Char) :
    (scanNumber (ds ++ more)).Reaches ds (.integer ds) := by
  unfold scanNumber
  simp only [List.takeWhile_append_of_pos h.2, List.dropWhile_append_of_pos h.2]
  split
  · split
    · exact ⟨_, List.append_assoc .., by simp⟩
    · exact ⟨_, List.append_assoc .., by simp⟩
  · split
    · next hexponent => exact ⟨_, List.append_assoc .., by simp [covered_ne_nil_of_exponent? hexponent]⟩
    · exact ⟨_, rfl, fun hnil => by simp [hnil]⟩

section Numbers

variable {whole fraction scale : List Char} (hwhole : IsNumeral whole)

include hwhole

theorem reaches_scaled (hscale : Scaling scale n) (more : List Char) :
    (scanNumber (whole ++ (scale ++ more))).Reaches (whole ++ scale)
      (.decimal (Decimal.ofParts whole [] n).toFloat) := by
  obtain ⟨e, tail, rfl, hpoint, hdigit⟩ := hscale.exists_eq_cons
  obtain ⟨htake, hdrop⟩ := Decimal.cut_append hwhole.2 (e :: (tail ++ more)) (by simpa using hdigit)
  obtain ⟨m, hexponent, hm⟩ := exponent?_of_scaling hscale more
  rw [List.cons_append] at hexponent
  simp only [scanNumber, List.cons_append, htake, hdrop]
  split
  · next heq => simp_all
  · simp only [hexponent]
    exact ⟨more.takeWhile isDigit, by simp, fun hnil => by simp [hm hnil]⟩

theorem reaches_pointed (hfraction : ∀ d ∈ fraction, isDigit d = true) (more : List Char) :
    (scanNumber (whole ++ '.' :: (fraction ++ more))).Reaches (whole ++ '.' :: fraction)
      (.decimal (Decimal.ofParts whole fraction 0).toFloat) := by
  obtain ⟨htake, hdrop⟩ := Decimal.cut_append hwhole.2 ('.' :: (fraction ++ more)) (by simp [isDigit])
  simp only [scanNumber, htake, hdrop, List.takeWhile_append_of_pos hfraction, List.dropWhile_append_of_pos hfraction]
  split
  · next exponentChars _ hexponent =>
    refine ⟨more.takeWhile isDigit ++ exponentChars, by simp, ?_⟩
    simp [covered_ne_nil_of_exponent? hexponent]
  · exact ⟨more.takeWhile isDigit, by simp, fun hnil => by simp [hnil]⟩

theorem reaches_pointedScaled (hfraction : ∀ d ∈ fraction, isDigit d = true) (hscale : Scaling scale n)
    (more : List Char) :
    (scanNumber (whole ++ '.' :: (fraction ++ (scale ++ more)))).Reaches (whole ++ '.' :: (fraction ++ scale))
      (.decimal (Decimal.ofParts whole fraction n).toFloat) := by
  obtain ⟨e, tail, rfl, -, hdigit⟩ := hscale.exists_eq_cons
  obtain ⟨htake, hdrop⟩ :=
    Decimal.cut_append hwhole.2 ('.' :: (fraction ++ (e :: tail ++ more))) (by simp [isDigit])
  obtain ⟨htake', hdrop'⟩ := Decimal.cut_append hfraction (e :: (tail ++ more)) (by simpa using hdigit)
  obtain ⟨m, hexponent, hm⟩ := exponent?_of_scaling hscale more
  rw [List.cons_append] at hexponent htake hdrop
  simp only [scanNumber, List.cons_append, htake, hdrop, htake', hdrop', hexponent]
  exact ⟨more.takeWhile isDigit, by simp, fun hnil => by simp [hm hnil]⟩

end Numbers

/-- A number at the front is scanned as a number. -/
theorem scan_append_of_isNumeral {tail : List Char} (h : IsNumeral ds) (heq : ds ++ tail = c :: cs) (more : List Char) :
    scan c (cs ++ more) = scanNumber (ds ++ (tail ++ more)) := by
  obtain ⟨d, ds, rfl⟩ := List.exists_cons_of_ne_nil h.1
  obtain ⟨rfl, rfl⟩ := by simpa using heq
  have hdigit : isDigit d = true := h.2 d (by simp)
  simp [scan, hdigit]

/-- A name at the front is covered with all that continues it. -/
theorem scan_append_of_isNameStart (hc : isNameStart c = true) (hcs : ∀ d ∈ cs, isNamePart d = true) (more : List Char) :
    (scan c (cs ++ more)).Reaches (c :: cs) (nameToken (c :: cs)) := by
  have hpart : ∀ d ∈ c :: cs, isNamePart d = true := by simpa [isNamePart, hc] using hcs
  have htake : (c :: (cs ++ more)).takeWhile isNamePart = c :: cs ++ more.takeWhile isNamePart :=
    List.takeWhile_append_of_pos hpart
  simp only [scan, isDigit_eq_false_of_isNameStart hc, hc, htake]
  exact ⟨more.takeWhile isNamePart, rfl, fun hnil => by simp [hnil]⟩

theorem Spells.reaches_append (h : Spells (c :: cs) t) (more : List Char) :
    ∃ u, (scan c (cs ++ more)).Reaches (c :: cs) u ∧ (u = t ∨ t = .identifier (c :: cs)) := by
  generalize htext : c :: cs = text at h
  cases h with
  | axis a =>
    cases htext
    have hletter : isNameStart a.letter = true := by cases a <;> rfl
    have htoken : nameToken [a.letter] = .axis a := by cases a <;> rfl
    exact ⟨_, scan_append_of_isNameStart hletter (by simp) more, .inl htoken⟩
  | cx =>
    cases htext
    exact ⟨_, scan_append_of_isNameStart rfl (by simp [isNamePart, isNameStart]) more, .inl rfl⟩
  | pointed hwhole hfraction =>
    rw [scan_append_of_isNumeral hwhole htext.symm]
    exact ⟨_, reaches_pointed hwhole hfraction more, .inl rfl⟩
  | pointedScaled hwhole hfraction hscale =>
    rw [scan_append_of_isNumeral hwhole htext.symm, List.cons_append, List.append_assoc]
    exact ⟨_, reaches_pointedScaled hwhole hfraction hscale more, .inl rfl⟩
  | scaled hwhole hscale =>
    rw [scan_append_of_isNumeral hwhole htext.symm]
    exact ⟨_, reaches_scaled hwhole hscale more, .inl rfl⟩
  | integer hds =>
    rw [scan_append_of_isNumeral hds ((List.append_nil _).trans htext.symm)]
    exact ⟨_, reaches_integer hds more, .inl rfl⟩
  | name hc hcs =>
    cases htext
    exact ⟨_, scan_append_of_isNameStart hc hcs more, .inr rfl⟩
  | punctuation hc =>
    cases htext
    obtain ⟨-, hdigit, hname⟩ := class_of_punctuation? hc
    exact ⟨_, ⟨[], by simp [scan, hdigit, hname], fun _ => by simp [scan, hdigit, hname, hc]⟩, .inl rfl⟩

theorem Spells.exists_eq_cons (h : Spells text t) : ∃ c cs, text = c :: cs := by
  have hnumeral {ds tail : List Char} (hds : IsNumeral ds) : ∃ c cs, ds ++ tail = c :: cs := by
    obtain ⟨d, ds, rfl⟩ := List.exists_cons_of_ne_nil hds.1
    exact ⟨d, ds ++ tail, rfl⟩
  cases h with
  | pointed hwhole _ => exact hnumeral hwhole
  | pointedScaled hwhole _ _ => exact hnumeral hwhole
  | scaled hwhole _ => exact hnumeral hwhole
  | integer hds => exact List.exists_cons_of_ne_nil hds.1
  | _ => exact ⟨_, _, rfl⟩

/-- The lexer covers every word at the front of its input. If it covers no more than this word, then it reads it, unless a
gate has the word for its name. -/
theorem Spells.reaches (h : Spells text t) (hfront : text <+: c :: cs) :
    ∃ u, (scan c cs).Reaches text u ∧ (u = t ∨ t = .identifier text) := by
  obtain ⟨d, ds, rfl⟩ := h.exists_eq_cons
  obtain ⟨more, hmore⟩ := hfront
  obtain ⟨rfl, rfl⟩ := List.cons.inj hmore
  exact h.reaches_append more

/-- A token is shown as it is written, but for decimals, which are shown by value. -/
theorem Spells.chars_eq (h : Spells text t) :
    (t.chars = text ∧ ∀ v, t ≠ .decimal v) ∨ ∃ d : Decimal, t = .decimal d.toFloat := by
  cases h with
  | pointed _ _ => exact .inr ⟨_, rfl⟩
  | pointedScaled _ _ _ => exact .inr ⟨_, rfl⟩
  | scaled _ _ => exact .inr ⟨_, rfl⟩
  | punctuation hc => exact .inl (by grind [punctuation?, Token.chars])
  | _ => exact .inl ⟨rfl, fun _ heq => Token.noConfusion heq⟩

/-- **Longest match.** The lexer covers every word at the front of its input. -/
theorem Spells.isPrefix_covered (h : Spells text t) (hfront : text <+: c :: cs) : text <+: (scan c cs).covered := by
  obtain ⟨u, ⟨extra, hcovered, -⟩, -⟩ := h.reaches hfront
  exact ⟨extra, hcovered.symm⟩

/-- **Priority.** The lexer reads any token that its word spells, but for a name that is also a gate. -/
theorem Spells.token_scan (h : Spells (scan c cs).covered t) :
    (scan c cs).token = some t ∨ t = .identifier (scan c cs).covered := by
  obtain ⟨u, ⟨extra, hcovered, hread⟩, hu⟩ := h.reaches ⟨_, scan_append c cs⟩
  have hextra : extra = [] := by simpa using hcovered
  rcases hu with rfl | hname
  · exact .inl (hread hextra)
  · exact .inr hname

/-- A character that starts no word is taken by itself. -/
theorem scan_eq_of_token_eq_none (h : (scan c cs).token = none) (ds : List Char) : scan c ds = ⟨none, [c], ds⟩ := by
  have hnumber : (scanNumber (c :: cs)).token ≠ none := by
    unfold scanNumber
    split
    · dsimp only
      split <;> simp
    · split <;> simp
  unfold scan at h ⊢
  split at h
  · exact absurd h hnumber
  · next hdigit =>
    split at h
    · cases h
    · next hname => simp_all

/-- The lexer fails only where no word starts. -/
theorem Spells.token_scan_ne_none (h : Spells text t) (hfront : text <+: c :: cs) : (scan c cs).token ≠ none := by
  intro hnone
  obtain ⟨d, ds, rfl⟩ := h.exists_eq_cons
  obtain ⟨u, ⟨extra, hcovered, hread⟩, -⟩ := h.reaches hfront
  rw [scan_eq_of_token_eq_none hnone] at hcovered hread
  obtain ⟨-, hnil⟩ := List.cons.inj hcovered
  cases hread (List.append_eq_nil_iff.1 hnil.symm).2

/-! ## What follows a word -/

theorem exists_covered_eq_cons (c : Char) (cs : List Char) : ∃ covered, (scan c cs).covered = c :: covered := by
  have happend := scan_append c cs
  have hlength := length_rest_scan_le c cs
  cases hcovered : (scan c cs).covered with
  | nil =>
    rw [hcovered, List.nil_append] at happend
    rw [happend, List.length_cons] at hlength
    omega
  | cons d covered =>
    rw [hcovered, List.cons_append, List.cons.injEq] at happend
    exact ⟨covered, by rw [happend.1]⟩

/-- The word alone decides which token is read. -/
theorem token_eq_of_covered_eq {c' : Char} {cs' : List Char} {t' : Token} (h : (scan c cs).token = some t)
    (h' : (scan c' cs').token = some t') (hcovered : (scan c cs).covered = (scan c' cs').covered) : t = t' := by
  have hword := spells_scan h
  have hword' := spells_scan h'
  rw [hcovered] at hword
  rw [← hcovered] at hword'
  have hread := hword'.token_scan
  have hread' := hword.token_scan
  rw [h, Option.some.injEq] at hread
  rw [h', Option.some.injEq] at hread'
  rcases hread with heq | hname
  · exact heq
  · rcases hread' with heq' | hname'
    · exact heq'.symm
    · rw [hname, hname', hcovered]

/-- A step of the lexer is decided by the characters up to the next blank: behind what it covers the rest may be replaced by
any other, as long as this one offers nothing new in front of its first blank. -/
theorem scan_eq_of_isPrefix {token : Option Token} {rest' : List Char} (h : scan c cs = ⟨token, c :: covered, rest⟩)
    (hrest : ∀ front, front <+: rest' → (∀ d ∈ front, isBlank d = false) → front <+: rest) :
    scan c (covered ++ rest') = ⟨token, c :: covered, rest'⟩ := by
  have htoken : (scan c cs).token = token := by rw [h]
  have hcovered : (scan c cs).covered = c :: covered := by rw [h]
  cases token with
  | none =>
    have hscan := scan_eq_of_token_eq_none htoken
    obtain ⟨rfl, -⟩ : covered = [] ∧ _ := by simpa using (hscan cs).symm.trans h
    exact hscan rest'
  | some t =>
    have hword : Spells (c :: covered) t := hcovered ▸ spells_scan htoken
    have hfront' : c :: covered <+: c :: (covered ++ rest') := ⟨rest', rfl⟩
    obtain ⟨extra, hcovered'⟩ := hword.isPrefix_covered hfront'
    obtain ⟨t', ht'⟩ : ∃ t', (scan c (covered ++ rest')).token = some t' :=
      Option.ne_none_iff_exists'.1 (hword.token_scan_ne_none hfront')
    -- What is covered now is a word that was there before, so it is no longer than the longest one.
    have hword' : Spells (c :: covered ++ extra) t' := hcovered'.symm ▸ spells_scan ht'
    have hsplit : extra ++ (scan c (covered ++ rest')).rest = rest' := by
      have happend := scan_append c (covered ++ rest')
      rw [← hcovered'] at happend
      simpa using happend
    have hextra : extra <+: rest :=
      hrest extra ⟨_, hsplit⟩ fun d hd => hword'.isBlank_eq_false d (List.mem_append_right _ hd)
    have hcs : c :: covered ++ rest = c :: cs := by
      have happend := scan_append c cs
      rwa [h] at happend
    have hfront : c :: covered ++ extra <+: c :: cs := hcs ▸ (List.prefix_append_right_inj _).2 hextra
    have hlongest := hword'.isPrefix_covered hfront
    rw [hcovered, ← List.append_nil (c :: covered), List.append_assoc, List.prefix_append_right_inj] at hlongest
    obtain rfl : extra = [] := List.prefix_nil.1 hlongest
    rw [List.append_nil] at hcovered'
    obtain rfl := token_eq_of_covered_eq htoken ht' (hcovered.trans hcovered')
    rcases hscan : scan c (covered ++ rest') with ⟨token', covered', rest''⟩
    simp_all

end RotationCircuits.Text
