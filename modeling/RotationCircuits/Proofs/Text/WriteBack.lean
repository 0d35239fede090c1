import RotationCircuits.Proofs.Binary64.Value
import RotationCircuits.Proofs.Text.RoundTrip

/-!
# Writing parsed programs back

The parser returns CX gates on supported pairs and rotations by signed decimals (`exists_decimal_of_parse`). A decimal beyond
the range of doubles is read as infinite, and an infinite angle is printed as a name, which is no angle to the parser. So a
parsed program is always printed, and the text is parsed to the program again exactly if no angle is infinite
(`parsed_program_written_back_iff`).
-/

namespace RotationCircuits.Text

open Float.Model (UnpackedFloat)

/-! ## What the parser returns -/

/-- A decimal token holds a decimal that was read. -/
theorem exists_decimal_of_scan {c : Char} {cs : List Char} {v : Float} (h : (scan c cs).token = some (.decimal v)) :
    ∃ d : Decimal, v = d.toFloat := by
  unfold scan at h
  split at h
  · unfold scanNumber at h
    split at h
    · dsimp only at h
      split at h <;> cases h <;> exact ⟨_, rfl⟩
    · split at h <;> cases h
      exact ⟨_, rfl⟩
  · split at h
    · unfold nameToken at h
      grind
    · unfold punctuation? at h
      grind

theorem exists_decimal_of_lexemesFrom {fuel start : Nat} {cs : List Char} {v : Float}
    (h : .ok (.decimal v) ∈ (lexemesFrom fuel start cs).map Lexeme.token) : ∃ d : Decimal, v = d.toFloat := by
  fun_induction lexemesFrom fuel start cs with
  | case1 => simp at h
  | case2 => simp at h
  | case3 _ _ _ _ _ ih => exact ih h
  | case4 _ _ c cs _ s stop token ih =>
    rw [List.map_cons, List.mem_cons] at h
    rcases h with h | h
    · cases ht : (scan c cs).token with
      | none => simp [token, s, ht] at h
      | some t =>
        obtain rfl : .decimal v = t := by simpa [token, s, ht] using h
        exact exists_decimal_of_scan ht
    · exact ih h

/-- A literal of a parsed source is read as a decimal. -/
theorem Literal.exists_decimal {source : String} {l : Literal}
    (h : .ok l.token ∈ (lexemes source.toList).map Lexeme.token) : ∃ d : Decimal, l.value = d.toFloat := by
  cases l with
  | integer ds => exact ⟨_, rfl⟩
  | decimal v => exact exists_decimal_of_lexemesFrom h

theorem Derivation.tokens_subset {d : Derivation} {phrase : Phrase} (h : phrase ∈ d.phrases) :
    phrase.tokens ⊆ d.tokens := by
  cases d with
  | empty => cases h
  | brackets => cases h
  | gates first more =>
    change phrase ∈ first :: more at h
    change phrase.tokens ⊆ separated first more
    induction more generalizing first with
    | nil =>
      rw [List.mem_singleton] at h
      rw [h]
      exact List.Subset.refl _
    | cons next more ih =>
      rcases List.mem_cons.1 h with rfl | h
      · exact List.subset_append_left _ _
      · intro t ht
        exact List.mem_append_right _ (List.mem_cons_of_mem _ (ih next h ht))

/-- Every gate is denoted by a phrase. -/
theorem exists_phrase_of_mapM {phrases : List Phrase} {gs : List (Gate Float)}
    (h : phrases.mapM Phrase.gate? = some gs) {g : Gate Float} (hg : g ∈ gs) :
    ∃ phrase ∈ phrases, phrase.gate? = some g := by
  induction phrases generalizing gs with
  | nil =>
    cases h
    cases hg
  | cons phrase phrases ih =>
    rw [List.mapM_cons] at h
    obtain ⟨g', hg', h⟩ := Option.bind_eq_some_iff.1 h
    obtain ⟨gs', hgs', h⟩ := Option.bind_eq_some_iff.1 h
    cases h
    rcases List.mem_cons.1 hg with rfl | hg
    · exact ⟨phrase, List.mem_cons_self, hg'⟩
    · obtain ⟨phrase', hmem, hgate⟩ := ih hgs' hg
      exact ⟨phrase', List.mem_cons_of_mem _ hmem, hgate⟩

/-- A parsed gate is a CX on a supported pair or a rotation by a decimal with a sign. -/
theorem exists_decimal_of_parse {source : String} {gs : List (Gate Float)} (h : parse source = .ok gs)
    {g : Gate Float} (hg : g ∈ gs) :
    (∃ c t, g = .cx c t ∧ Gate.IsPair c t) ∨
      ∃ (a : Axis) (q : Qubit) (s : Sign) (d : Decimal), g = .rotation a q (s.apply d.toFloat) := by
  obtain ⟨d, htokens, hgs⟩ := exists_derivation_of_parse h
  obtain ⟨phrase, hphrase, hgate⟩ := exists_phrase_of_mapM hgs hg
  cases phrase with
  | cx c t =>
    obtain ⟨control, -, target, -, hpair, rfl⟩ := Phrase.gate?_cx_eq_some_iff.1 hgate
    exact .inl ⟨control, target, rfl, hpair⟩
  | rotation a i s l =>
    obtain ⟨q, -, rfl⟩ := Phrase.gate?_rotation_eq_some_iff.1 hgate
    have hmem : l.token ∈ d.tokens := Derivation.tokens_subset hphrase (by simp [Phrase.tokens])
    obtain ⟨decimal, hvalue⟩ := Literal.exists_decimal (htokens ▸ List.mem_map_of_mem hmem)
    exact .inr ⟨a, q, s, decimal, by rw [hvalue]⟩

theorem isNaN_apply (s : Sign) (x : Float) : (s.apply x).isNaN = x.isNaN := by
  cases s with
  | minus => exact Binary64.isNaN_neg x
  | _ => rfl

/-! ## Infinite angles -/

/-- What an infinite angle is printed as, apart from the sign. -/
def infinityName : List Char := ['i', 'n', 'f']

/-- An infinite angle is a sign, if it is negative, and a name. -/
theorem exists_sign_of_infinite {x : Float} (hnumber : x.isNaN = false) (hx : x.isFinite = false) :
    ∃ s : Sign, ∀ rest ts, Lexes (')' :: rest) ts →
      Lexes (Decimal.plainChars x ++ ')' :: rest) (s.tokens ++ .identifier infinityName :: ts) := by
  have hinf : x.isInf = true := by
    change x.toModel.unpack.isFinite = false at hx
    change x.toModel.unpack.isNaN = false at hnumber
    change x.toModel.unpack.isInf = true
    cases h : x.toModel.unpack <;> simp_all [UnpackedFloat.isFinite, UnpackedFloat.isNaN, UnpackedFloat.isInf]
  have hchars : Decimal.plainChars x = Decimal.signed x infinityName := by
    simp only [Decimal.plainChars, Decimal.charsWith, hnumber, hinf]
    rfl
  have hname (rest : List Char) (ts : List Token) (h : Lexes (')' :: rest) ts) :
      Lexes (infinityName ++ ')' :: rest) (.identifier infinityName :: ts) := by
    have hpart : ∀ d ∈ ['n', 'f'], isNamePart d = true := by simp [isNamePart, isNameStart]
    exact Lexes.name rfl rfl hpart h
  rw [hchars, Decimal.signed]
  cases hsign : Binary64.isNegative x with
  | false => exact ⟨.absent, fun rest ts h => hname rest ts h⟩
  | true => exact ⟨.minus, fun rest ts h => Lexes.punctuation rfl (hname rest ts h)⟩

/-- A rotation by an infinite angle. -/
def IsInfinite (g : Gate Float) : Prop := ∃ a q x, g = .rotation a q x ∧ x.isNaN = false ∧ x.isFinite = false

/-- What the parser can return: valid gates that have a notation, and rotations by infinite angles. -/
def IsParsed (g : Gate Float) : Prop := g.isGeneral = false ∧ (g.validate = .ok () ∨ IsInfinite g)

theorem isParsed_of_parse {source : String} {gs : List (Gate Float)} (h : parse source = .ok gs) {g : Gate Float}
    (hg : g ∈ gs) : IsParsed g := by
  rcases exists_decimal_of_parse h hg with ⟨c, t, rfl, hpair⟩ | ⟨a, q, s, d, rfl⟩
  · exact ⟨rfl, .inl (Gate.validate_cx_iff.2 hpair)⟩
  · refine ⟨rfl, ?_⟩
    cases hx : (s.apply d.toFloat).isFinite with
    | true => exact .inl ((Gate.validate_eq_ok_iff (by simp)).2 (List.forall_mem_singleton.2 hx))
    | false =>
      have hnumber : (s.apply d.toFloat).isNaN = false := (isNaN_apply s _).trans d.isNaN_toFloat
      exact .inr ⟨a, q, _, rfl, hnumber, hx⟩

/-- The tokens of a rotation by an infinite angle, up to the angle. -/
def infiniteTokens (a : Axis) (q : Qubit) (s : Sign) : List Token :=
  .axis a :: .leftParen :: .integer q.digits :: .comma :: (s.tokens ++ [.identifier infinityName])

theorem exists_infiniteTokens {g : Gate Float} (h : IsInfinite g) :
    ∃ a q s, ∀ rest ts, Lexes rest ts → Lexes (g.chars ++ rest) (infiniteTokens a q s ++ .rightParen :: ts) := by
  obtain ⟨a, q, x, rfl, hnumber, hx⟩ := h
  obtain ⟨s, hlexes⟩ := exists_sign_of_infinite hnumber hx
  refine ⟨a, q, s, fun rest ts h => ?_⟩
  have hclose := hlexes rest _ (Lexes.punctuation rfl h)
  have hindex := Lexes.index q rfl (by decide) (Lexes.separator hclose)
  simpa [Gate.chars, Gate.charsWith, infiniteTokens] using Lexes.axis a hindex

/-- Whatever the parser returns is printed as tokens. -/
theorem IsParsed.exists_tokens {g : Gate Float} (h : IsParsed g) :
    ∃ us, ∀ rest ts, Lexes rest ts → Lexes (g.chars ++ rest) (us ++ ts) := by
  obtain ⟨hwritable, hvalid | hinf⟩ := h
  · obtain ⟨phrase, -, hlexes⟩ := exists_phrase hwritable hvalid
    exact ⟨phrase.tokens, hlexes⟩
  · obtain ⟨a, q, s, hlexes⟩ := exists_infiniteTokens hinf
    exact ⟨infiniteTokens a q s ++ [.rightParen], fun rest ts h => by simpa using hlexes rest ts h⟩

theorem listChars_cons (g : Gate Float) {gs : List (Gate Float)} (h : gs ≠ []) :
    listChars (g :: gs) = g.chars ++ ',' :: ' ' :: listChars gs := by
  obtain ⟨g', gs, rfl⟩ := List.exists_cons_of_ne_nil h
  rfl

theorem exists_tokens_listChars {gs : List (Gate Float)} (h : ∀ g ∈ gs, IsParsed g) :
    ∃ us, Lexes (listChars gs) us := by
  induction gs with
  | nil => exact ⟨_, Lexes.punctuation rfl (Lexes.punctuation rfl lexes_nil)⟩
  | cons g gs ih =>
    obtain ⟨hg, hgs⟩ := List.forall_mem_cons.1 h
    obtain ⟨us, hus⟩ := hg.exists_tokens
    by_cases hnil : gs = []
    · subst hnil
      exact ⟨us, by simpa [listChars] using hus [] [] lexes_nil⟩
    · obtain ⟨vs, hvs⟩ := ih hgs
      exact ⟨us ++ .comma :: vs, listChars_cons g hnil ▸ hus _ _ (Lexes.separator hvs)⟩

/-! ## Where the parser stops -/

/-- A name stands where an angle is looked for. -/
def infinityError (position : Nat) : ParseError := .unexpectedToken position .angle "inf"

variable {ls tail : List Located}

theorem angle_eq_error {s : Sign} (h : Before (s.tokens ++ [.identifier infinityName]) ls tail) :
    ∃ k, angle ls = .error (infinityError k) := by
  cases s with
  | absent =>
    obtain ⟨k, mid, rfl, -⟩ := before_cons.1 h
    exact ⟨k, rfl⟩
  | plus =>
    obtain ⟨n, mid, rfl, hname⟩ := before_cons.1 h
    obtain ⟨k, mid, rfl, -⟩ := before_cons.1 hname
    exact ⟨k, rfl⟩
  | minus =>
    obtain ⟨n, mid, rfl, hname⟩ := before_cons.1 h
    obtain ⟨k, mid, rfl, -⟩ := before_cons.1 hname
    exact ⟨k, rfl⟩

theorem gate_eq_error {a : Axis} {q : Qubit} {s : Sign} (h : Before (infiniteTokens a q s) ls tail) :
    ∃ k, gate ls = .error (infinityError k) := by
  obtain ⟨n, ls₁, rfl, hcall⟩ := before_cons.1 h
  obtain ⟨ls₂, hopen, hargs⟩ := (@before_append [_] _ _ _).1 hcall
  obtain ⟨ls₃, hindex, hrest⟩ := (@before_append [_] _ _ _).1 hargs
  obtain ⟨ls₄, hcomma, hangle⟩ := (@before_append [_] _ _ _).1 hrest
  rw [← expect_eq_ok_iff] at hopen hcomma
  have hqubit := qubit_eq_ok_iff.2 ⟨q.digits, hindex, index?_digits q⟩
  obtain ⟨k, hk⟩ := angle_eq_error hangle
  refine ⟨k, bind_eq_error.2 (.inr ⟨_, hopen, ?_⟩)⟩
  refine bind_eq_error.2 (.inr ⟨_, hqubit, ?_⟩)
  exact bind_eq_error.2 (.inr ⟨_, hcomma, bind_eq_error.2 (.inl hk)⟩)

/-- The parser of a list of gates stops at an infinite angle. -/
structure Stops (ts : List Token) : Prop where
  unbracketed : ∃ t ∈ ts.head?, t ≠ .leftBracket
  gates_eq_error : ∀ {ls fuel}, Before ts ls [] → ls.length ≤ fuel → ∃ k, gates fuel ls = .error (infinityError k)

theorem stops_infiniteTokens (a : Axis) (q : Qubit) (s : Sign) (ts : List Token) :
    Stops (infiniteTokens a q s ++ ts) where
  unbracketed := ⟨.axis a, rfl, by simp⟩
  gates_eq_error {ls fuel} h hfuel := by
    obtain ⟨mid, hbefore, -⟩ := before_append.1 h
    obtain ⟨k, hk⟩ := gate_eq_error hbefore
    cases fuel with
    | zero =>
      have hlength := hbefore.length_eq
      simp only [infiniteTokens, List.length_append, List.length_cons] at hlength
      omega
    | succ fuel => exact ⟨k, bind_eq_error.2 (.inl hk)⟩

/-- The gates in front of an infinite angle are read. -/
theorem Stops.cons {phrase : Phrase} {g : Gate Float} {ts : List Token} (hgate : phrase.gate? = some g)
    (h : Stops ts) : Stops (phrase.tokens ++ .comma :: ts) where
  unbracketed := by cases phrase <;> exact ⟨_, rfl, by simp⟩
  gates_eq_error {ls fuel} hls hfuel := by
    obtain ⟨ls₁, hphrase, hrest⟩ := before_append.1 hls
    obtain ⟨n, ls₂, rfl, hnext⟩ := before_cons.1 hrest
    have hlength := hphrase.length_eq
    simp only [List.length_cons] at hlength
    cases fuel with
    | zero => omega
    | succ fuel =>
      obtain ⟨k, hk⟩ := h.gates_eq_error hnext (show ls₂.length ≤ fuel by omega)
      have hcomma : expect .comma (⟨.comma, n⟩ :: ls₂) = .ok ls₂ := by simp [expect]
      refine ⟨k, bind_eq_error.2 (.inr ⟨_, gate_eq_ok_iff.2 ⟨phrase, hphrase, hgate⟩, ?_⟩)⟩
      exact bind_eq_error.2 (.inr ⟨ls₂, hcomma, bind_eq_error.2 (.inl hk)⟩)

theorem Stops.program_eq_error {ts : List Token} (h : Stops ts) (hls : ls.map Located.token = ts) :
    ∃ k, program ls = .error (infinityError k) := by
  obtain ⟨t, ht, hbracket⟩ := h.unbracketed
  obtain ⟨k, hk⟩ := h.gates_eq_error (before_end.2 hls) le_rfl
  refine ⟨k, ?_⟩
  subst hls
  cases ls with
  | nil => cases ht
  | cons f ls =>
    obtain ⟨u, n⟩ := f
    cases ht
    cases u with
    | leftBracket => exact absurd rfl hbracket
    | _ => exact hk

/-- The tokens of printed gates, one of them by an infinite angle. -/
theorem exists_stops {gs : List (Gate Float)} (hparsed : ∀ g ∈ gs, IsParsed g) (hinf : ∃ g ∈ gs, IsInfinite g) :
    ∃ ts, Lexes (listChars gs) ts ∧ Stops ts := by
  -- The gates up to the first infinite angle are phrases. Those after it only have to be tokens: they are never read.
  induction gs with
  | nil => simp at hinf
  | cons g gs ih =>
    obtain ⟨hg, hgs⟩ := List.forall_mem_cons.1 hparsed
    by_cases hfirst : IsInfinite g
    · obtain ⟨a, q, s, hlexes⟩ := exists_infiniteTokens hfirst
      by_cases hnil : gs = []
      · subst hnil
        exact ⟨_, by simpa [listChars] using hlexes [] [] lexes_nil, stops_infiniteTokens a q s _⟩
      · obtain ⟨us, hus⟩ := exists_tokens_listChars hgs
        exact ⟨_, listChars_cons g hnil ▸ hlexes _ _ (Lexes.separator hus), stops_infiniteTokens a q s _⟩
    · have hrest : ∃ g' ∈ gs, IsInfinite g' := by simpa [hfirst] using hinf
      have hnil : gs ≠ [] := by
        rintro rfl
        simp at hrest
      obtain ⟨phrase, hgate, hlexes⟩ := exists_phrase hg.1 (hg.2.resolve_right hfirst)
      obtain ⟨ts, hts, hstops⟩ := ih hgs hrest
      exact ⟨_, listChars_cons g hnil ▸ hlexes _ _ (Lexes.separator hts), hstops.cons hgate⟩

/-! ## Writing back -/

theorem exists_program_of_lexes {cs : List Char} {ts : List Token} (h : Lexes cs ts) :
    ∃ ls, ls.map Located.token = ts ∧ parse (.ofList cs) = program ls := by
  have hchars : (String.ofList cs).toList = cs := String.toList_ofList
  rw [← hchars] at h
  exact parse_eq_program h.map_lexemes

theorem parse_listChars {gs : List (Gate Float)} (hparsed : ∀ g ∈ gs, IsParsed g) (hfinite : ∀ g ∈ gs, ¬IsInfinite g) :
    parse (.ofList (listChars gs)) = .ok gs := by
  obtain ⟨d, hgates, hlexes⟩ := exists_derivation fun g hg =>
    ⟨(hparsed g hg).1, (hparsed g hg).2.resolve_right (hfinite g hg)⟩
  obtain ⟨ls, hls, hparse⟩ := exists_program_of_lexes hlexes
  rw [hparse, program_eq_ok_iff]
  exact ⟨d, before_end.2 hls, hgates⟩

theorem parse_listChars_of_infinite {gs : List (Gate Float)} (hparsed : ∀ g ∈ gs, IsParsed g)
    (hinf : ∃ g ∈ gs, IsInfinite g) : ∃ k, parse (.ofList (listChars gs)) = .error (infinityError k) := by
  obtain ⟨ts, hlexes, hstops⟩ := exists_stops hparsed hinf
  obtain ⟨ls, hls, hparse⟩ := exists_program_of_lexes hlexes
  rw [hparse]
  exact hstops.program_eq_error hls

/-- Gates that the parser has returned are read back from their text if they hold no infinite angle, and only then. -/
theorem parse_listChars_eq_ok_iff {gs gs' : List (Gate Float)} (hparsed : ∀ g ∈ gs, IsParsed g) :
    parse (.ofList (listChars gs)) = .ok gs' ↔ (∀ g ∈ gs, ¬IsInfinite g) ∧ gs = gs' := by
  by_cases hfinite : ∀ g ∈ gs, ¬IsInfinite g
  · rw [parse_listChars hparsed hfinite, Except.ok.injEq]
    exact (and_iff_right hfinite).symm
  · obtain ⟨k, hk⟩ := parse_listChars_of_infinite hparsed (by simpa using hfinite)
    simp [hk, hfinite]

/-- The angles of rotations are finite. -/
def HasFiniteAngles (gs : List (Gate Float)) : Prop := ∀ a q x, .rotation a q x ∈ gs → x.isFinite = true

theorem hasFiniteAngles_iff {gs : List (Gate Float)} (hparsed : ∀ g ∈ gs, IsParsed g) :
    HasFiniteAngles gs ↔ ∀ g ∈ gs, ¬IsInfinite g := by
  constructor
  · rintro h g hg ⟨a, q, x, rfl, -, hx⟩
    simp [h a q x hg] at hx
  · intro h a q x hmem
    have hvalid := (hparsed _ hmem).2.resolve_right (h _ hmem)
    exact (Gate.validate_eq_ok_iff (by simp)).1 hvalid x (List.mem_singleton_self x)

/-- **Which parsed programs can be written back.** The gates of a source that is parsed are printed. Their text is parsed
again, to the very same gates, if and only if all angles are finite; then it is a normal form: no other gates that a
source is parsed to have this text, so it is the text of what it is parsed to. An infinite angle, which is what a number
too large for a double is parsed to, is printed as a name; the parser finds this name where it looks for an angle. -/
theorem parsed_program_written_back_iff {source : String} {gs : List (Gate Float)} (h : parse source = .ok gs) :
    ∃ text, print gs = .ok text ∧
      (parse text = .ok gs ↔ HasFiniteAngles gs) ∧
      (HasFiniteAngles gs → ∀ source' gs', parse source' = .ok gs' → (print gs' = .ok text ↔ gs' = gs)) ∧
      (¬HasFiniteAngles gs → ∃ position,
        parse text = .error (.unexpectedToken position .angle "inf")) := by
  have hparsed : ∀ g ∈ gs, IsParsed g := fun g => isParsed_of_parse h
  have hprint := print_of_writable fun g hg => (hparsed g hg).1
  refine ⟨_, hprint, ?_, fun hfinite source' gs' h' => ⟨fun hsame => ?_, fun heq => heq ▸ hprint⟩, fun hfinite => ?_⟩
  · rw [parse_listChars_eq_ok_iff hparsed, hasFiniteAngles_iff hparsed]
    exact and_iff_left rfl
  · have hparsed' : ∀ g ∈ gs', IsParsed g := fun g => isParsed_of_parse h'
    rw [print_of_writable fun g hg => (hparsed' g hg).1, Except.ok.injEq] at hsame
    have hback := parse_listChars hparsed ((hasFiniteAngles_iff hparsed).1 hfinite)
    rw [← hsame] at hback
    exact ((parse_listChars_eq_ok_iff hparsed').1 hback).2
  · rw [hasFiniteAngles_iff hparsed] at hfinite
    exact parse_listChars_of_infinite hparsed (by simpa using hfinite)

/-- What `" X(007, +1.50e2),CX(1,0)"` is parsed to. -/
def tidied : List (Gate Float) := [.rotation .x ⟨7⟩ 150, .cx ⟨1⟩ ⟨0⟩]

theorem parsed_program_written_back_iff_tidied :
    parse " X(007, +1.50e2),CX(1,0)" = .ok tidied ∧ HasFiniteAngles tidied ∧
      ∃ text, print tidied = .ok text ∧ parse text = .ok tidied := by
  have hparse : parse " X(007, +1.50e2),CX(1,0)" = .ok tidied := by decide +kernel
  have hfinite : HasFiniteAngles tidied := by
    intro a q x hmem
    obtain ⟨-, -, rfl⟩ : a = .x ∧ q = ⟨7⟩ ∧ x = 150 := by simpa [tidied] using hmem
    decide +kernel
  obtain ⟨text, hprint, hback, -⟩ := parsed_program_written_back_iff hparse
  exact ⟨hparse, hfinite, text, hprint, hback.2 hfinite⟩

/-- A number too large for a double is accepted, and the text of what it is parsed to is not. -/
theorem overflow_not_written_back :
    parse "X(0, 1e999)" = .ok [.rotation .x ⟨0⟩ (1 / 0)] ∧ print [.rotation .x ⟨0⟩ (1 / 0)] = .ok "X(0, inf)" ∧
      parse "X(0, inf)" = .error (.unexpectedToken 5 .angle "inf") := by
  decide +kernel

end RotationCircuits.Text
