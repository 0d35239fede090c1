import RotationCircuits.Proofs.Decimal.ReadBack
import RotationCircuits.Proofs.Text.Grammar
import RotationCircuits.Proofs.Text.Words

/-!
# Parsing what was printed

What is printed is lexed to the tokens of a part of the grammar that denotes it: a finite angle to a sign and a literal, a
gate to a phrase, gates to a derivation. This holds in front of any rest that does not continue the last token, so the parts
can be put together, and the parser undoes the printer (`parse_undoes_print`).
-/

namespace RotationCircuits.Text

open Float.Model (UnpackedFloat)

variable {rest : List Char} {ts : List Token}

/-! ## Numbers -/

/-- Positional notation is a word for a number, which is read as the decimal. -/
theorem exists_literal (d : Decimal) :
    ∃ l : Literal, l.value = d.toFloat ∧ Spells d.positional l.token ∧
      ∀ {e : Char}, isNamePart e = false → e ≠ '.' → ∀ rest ts, Lexes (e :: rest) ts →
        Lexes (d.positional ++ e :: rest) (l.token :: ts) := by
  obtain ⟨whole, fraction, hne, hdigits, hvalue, hform⟩ := d.exists_positional
  have hread := Decimal.toFloat_eq_of_value_eq hvalue
  obtain ⟨hwhole, hfraction⟩ := List.forall_mem_append.1 hdigits
  rcases hform with ⟨rfl, hform⟩ | hform
  · rw [hform]
    exact ⟨.integer whole, hread, .integer ⟨hne, hwhole⟩, fun he hpoint _ _ => Lexes.integer he hne hwhole hpoint⟩
  · rw [hform]
    refine ⟨.decimal (Decimal.ofParts whole fraction 0).toFloat, hread, .pointed ⟨hne, hwhole⟩ hfraction,
      fun he _ rest ts h => ?_⟩
    rw [List.append_assoc, List.cons_append]
    exact Lexes.decimal he hne hwhole hfraction h

/-- A finite angle is a sign, if it is negative, and a literal; together they are read as the angle. -/
theorem exists_angle {x : Float} (hx : x.isFinite = true) {e : Char} (he : isNamePart e = false) (hpoint : e ≠ '.') :
    ∃ (s : Sign) (l : Literal), s.apply l.value = x ∧
      ∀ rest ts, Lexes (e :: rest) ts → Lexes (Decimal.plainChars x ++ e :: rest) (s.tokens ++ l.token :: ts) := by
  obtain ⟨l, hl, -, hlexes⟩ := exists_literal (Decimal.shortest .up x)
  replace hlexes := hlexes he hpoint
  have hchars := Decimal.plainChars_of_isFinite hx
  rw [Decimal.toFloat_shortest .up hx] at hl
  cases hsign : Binary64.isNegative x with
  | false =>
    refine ⟨.absent, l, hl.trans (Binary64.abs_of_not_isNegative hsign), fun rest ts h => ?_⟩
    rw [hchars, Decimal.signed, hsign]
    exact hlexes rest ts h
  | true =>
    refine ⟨.minus, l, ?_, fun rest ts h => ?_⟩
    · rw [Sign.apply, hl, Binary64.neg_abs_of_isNegative hsign]
    · rw [hchars, Decimal.signed, hsign]
      exact Lexes.punctuation rfl (hlexes rest ts h)

/-! ## Gates -/

theorem index?_digits (q : Qubit) : index? q.digits = some q := by
  have hindex := Decimal.ofDigits_digits q.index.toNat
  simp [index?, Qubit.digits, hindex, q.index.toNat_lt_size]

theorem Lexes.index (q : Qubit) {e : Char} (he : isNamePart e = false) (hpoint : e ≠ '.') (h : Lexes (e :: rest) ts) :
    Lexes (q.digits ++ e :: rest) (.integer q.digits :: ts) :=
  Lexes.integer he (Decimal.digits_ne_nil _) (fun _ => Decimal.isDigit_of_mem_digits) hpoint h

theorem Lexes.axis (a : Axis) {cs : List Char} (h : Lexes cs ts) :
    Lexes (a.letter :: '(' :: cs) (.axis a :: .leftParen :: ts) := by
  have hopen := Lexes.punctuation (c := '(') rfl h
  cases a <;> exact Lexes.name rfl rfl (List.forall_mem_nil _) hopen

theorem Lexes.cx {cs : List Char} (h : Lexes cs ts) : Lexes ('C' :: 'X' :: '(' :: cs) (.cx :: .leftParen :: ts) := by
  have hopen := Lexes.punctuation (c := '(') rfl h
  have hname : ∀ d ∈ ['X'], isNamePart d = true := List.forall_mem_singleton.2 rfl
  exact Lexes.name rfl rfl hname hopen

theorem Lexes.separator {cs : List Char} (h : Lexes cs ts) : Lexes (',' :: ' ' :: cs) (.comma :: ts) :=
  Lexes.punctuation rfl (Lexes.blank rfl h)

/-- A valid gate that has a notation is printed as a phrase that denotes it. -/
theorem exists_phrase {g : Gate Float} (hwritable : g.isGeneral = false) (hvalid : g.validate = .ok ()) :
    ∃ phrase : Phrase, phrase.gate? = some g ∧
      ∀ rest ts, Lexes rest ts → Lexes (g.chars ++ rest) (phrase.tokens ++ ts) := by
  cases g with
  | rotation a q θ =>
    have hθ : θ.isFinite = true := (Gate.validate_eq_ok_iff (by simp)).1 hvalid θ (by simp [Gate.angles])
    obtain ⟨s, l, hangle, hlexes⟩ := exists_angle hθ (e := ')') rfl (by decide)
    refine ⟨.rotation a q.digits s l, ?_, fun rest ts h => ?_⟩
    · exact Phrase.gate?_rotation_eq_some_iff.2 ⟨q, index?_digits q, by rw [hangle]⟩
    · have hclose := hlexes rest _ (Lexes.punctuation rfl h)
      have hindex := Lexes.index q rfl (by decide) (Lexes.separator hclose)
      simpa [Gate.chars, Gate.charsWith, Phrase.tokens] using Lexes.axis a hindex
  | cx c t =>
    have hpair := Gate.validate_cx_iff.1 hvalid
    refine ⟨.cx c.digits t.digits, ?_, fun rest ts h => ?_⟩
    · exact Phrase.gate?_cx_eq_some_iff.2 ⟨c, index?_digits c, t, index?_digits t, hpair, rfl⟩
    · have htarget := Lexes.index t rfl (by decide) (Lexes.punctuation (c := ')') rfl h)
      have hcontrol := Lexes.index c rfl (by decide) (Lexes.separator htarget)
      simpa [Gate.chars, Gate.charsWith, Phrase.tokens] using Lexes.cx hcontrol
  | general q e => cases hwritable

/-- Gates are printed as phrases with commas between them. -/
theorem exists_separated {g : Gate Float} {gs : List (Gate Float)}
    (h : ∀ g' ∈ g :: gs, g'.isGeneral = false ∧ g'.validate = .ok ()) :
    ∃ first more, (first :: more).mapM Phrase.gate? = some (g :: gs) ∧
      Lexes (listChars (g :: gs)) (Derivation.separated first more) := by
  induction gs generalizing g with
  | nil =>
    obtain ⟨first, hgate, hlexes⟩ := exists_phrase (h g (by simp)).1 (h g (by simp)).2
    refine ⟨first, [], by simp [hgate], ?_⟩
    simpa [listChars, Derivation.separated] using hlexes [] [] lexes_nil
  | cons g' gs ih =>
    obtain ⟨first, hgate, hlexes⟩ := exists_phrase (h g (by simp)).1 (h g (by simp)).2
    obtain ⟨next, more, hgates, hmore⟩ := ih fun g'' hmem => h g'' (List.mem_cons_of_mem g hmem)
    refine ⟨first, next :: more, ?_, hlexes _ _ (Lexes.separator hmore)⟩
    rw [List.mapM_cons, hgate, hgates]
    rfl

theorem exists_derivation {gs : List (Gate Float)} (h : ∀ g ∈ gs, g.isGeneral = false ∧ g.validate = .ok ()) :
    ∃ d : Derivation, d.gates? = some gs ∧ Lexes (listChars gs) d.tokens := by
  cases gs with
  | nil => exact ⟨.brackets, rfl, Lexes.punctuation rfl (Lexes.punctuation rfl lexes_nil)⟩
  | cons g gs =>
    obtain ⟨first, more, hgates, hlexes⟩ := exists_separated h
    exact ⟨.gates first more, hgates, hlexes⟩

/-! ## Printing and parsing -/

/-- To write a separator in front of every gate but the first is to write one between any two gates. -/
theorem listChars_cons_eq_charsFrom (g : Gate Float) (gs : List (Gate Float)) (i : Nat) :
    listChars (g :: gs) = g.chars ++ Circuit.charsFrom (i + 1) gs := by
  induction gs generalizing g i with
  | nil => rw [listChars, Circuit.charsFrom, List.append_nil]
  | cons g' gs ih =>
    rw [Circuit.charsFrom, if_pos i.succ_pos, ← ih g' (i + 1)]
    rfl

/-- A circuit shows the gates that the printer writes. -/
theorem circuit_text_eq (c : Circuit Float) : c.text = .ofList (listChars c.gates) := by
  obtain ⟨width, gs⟩ := c
  cases gs with
  | nil => rfl
  | cons g gs => rw [listChars_cons_eq_charsFrom g gs 0]; rfl

theorem isGeneral_eq_false {gs : List (Gate Float)} (h : ∀ q e, .general q e ∉ gs) :
    ∀ g ∈ gs, g.isGeneral = false := by
  intro g hg
  cases g with
  | general q e => exact absurd hg (h q e)
  | _ => rfl

theorem print_of_writable {gs : List (Gate Float)} (h : ∀ g ∈ gs, g.isGeneral = false) :
    print gs = .ok (.ofList (listChars gs)) := by
  have hfind : gs.find? Gate.isGeneral = none := List.find?_eq_none.2 (by simpa using h)
  rw [print, printChars, hfind]
  rfl

/-- **The parser undoes the printer.** Valid gates with no general one among them are printed, and the text is parsed to
the very same gates, with the same bits in every angle. A circuit without general gates is printed as its text. -/
theorem parse_undoes_print :
    (∀ gs : List (Gate Float), (∀ q e, .general q e ∉ gs) → (∀ g ∈ gs, g.validate = .ok ()) →
      ∃ text, print gs = .ok text ∧ parse text = .ok gs) ∧
    ∀ c : Circuit Float, (∀ q e, .general q e ∉ c.gates) → printCircuit c = .ok c.text := by
  constructor
  · intro gs hgeneral hvalid
    have hwritable := isGeneral_eq_false hgeneral
    obtain ⟨d, hgates, hlexes⟩ := exists_derivation fun g hg => ⟨hwritable g hg, hvalid g hg⟩
    have hchars : (String.ofList (listChars gs)).toList = listChars gs := String.toList_ofList
    rw [← hchars] at hlexes
    obtain ⟨ls, hls, hparse⟩ := parse_eq_program hlexes.map_lexemes
    refine ⟨_, print_of_writable hwritable, ?_⟩
    rw [hparse, program_eq_ok_iff]
    exact ⟨d, before_end.2 hls, hgates⟩
  · intro c hgeneral
    rw [circuit_text_eq]
    exact print_of_writable (isGeneral_eq_false hgeneral)

/-- The largest index, negative zero, the least positive double and a number of 309 digits. -/
def extremes : List (Gate Float) :=
  [.rotation .x ⟨4294967295⟩ (-0.0), .rotation .y ⟨0⟩ 5e-324, .rotation .z ⟨1⟩ (-1e308), .cx ⟨1⟩ ⟨0⟩]

theorem parse_undoes_print_extremes :
    (∀ q e, .general q e ∉ extremes) ∧ (∀ g ∈ extremes, g.validate = .ok ()) ∧
      (∃ text, print extremes = .ok text ∧ parse text = .ok extremes) ∧
      printCircuit ⟨2, extremes⟩ = .ok (Circuit.text ⟨2, extremes⟩) := by
  have hgeneral : ∀ q e, .general q e ∉ extremes := by simp [extremes]
  have hvalid : ∀ g ∈ extremes, g.validate = .ok () := by
    simp only [← Gate.isValid_iff]
    decide +kernel
  exact ⟨hgeneral, hvalid, parse_undoes_print.1 _ hgeneral hvalid, parse_undoes_print.2 _ hgeneral⟩

end RotationCircuits.Text
