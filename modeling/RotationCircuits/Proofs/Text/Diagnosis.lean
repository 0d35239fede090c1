import RotationCircuits.Proofs.Text.RoundTrip
import RotationCircuits.Proofs.Text.Spans

/-!
# Where errors are reported

A reader of the parser is looked at together with all that may follow what it reads. `Then C K` are a token of the class `C`
and a `K` behind it; `Signed K` and `Calls K` are an angle and a gate in front of a `K`. If a reader fails, then its error
`Reports` where the tokens stop being the beginning of such a list: there is one lemma per reader, to be used in front of
the rest of a chain (`reports_expect_bind`, `reports_qubit_bind`, `reports_angle_bind`, `reports_gate_bind`). For the whole
parser this list is one of the grammar (`reports_program`), so an unexpected token is the first that no program has there,
and an unexpected end comes after the beginning of a program (`parse_error_located`).
-/

namespace RotationCircuits.Text

/-! ## Viable beginnings -/

/-- A source can have this token. -/
def Token.IsWritable (t : Token) : Prop := ∃ text, Spells text t

/-- The tokens are the beginning of an `L`: tokens that can be written make it one. -/
def Viable (L : List Token → Prop) (ts : List Token) : Prop := ∃ us, (∀ u ∈ us, Token.IsWritable u) ∧ L (ts ++ us)

/-- The error says where the tokens stop being the beginning of an `L`. -/
def Reports (L : List Token → Prop) (ls : List Located) : ParseError → Prop
  | .unexpectedToken p _ shown => ∃ front t back, ls = front ++ ⟨t, p⟩ :: back ∧ shown = t.text ∧
      Viable L (front.map Located.token) ∧ ∀ us, ¬L (front.map Located.token ++ t :: us)
  | .unexpectedEnd _ => ¬L (ls.map Located.token) ∧ Viable L (ls.map Located.token)
  | .invalidCharacter .. => False
  | _ => True

variable {K L : List Token → Prop} {C : Token → Prop} {t : Token} {ts : List Token} {ls rest : List Located} {e : ParseError}

theorem Viable.append (h : Viable K ts) {us : List Token} (hL : ∀ vs, L (us ++ vs) ↔ K vs) : Viable L (us ++ ts) := by
  obtain ⟨vs, hvs, hK⟩ := h
  exact ⟨vs, hvs, by rwa [List.append_assoc, hL]⟩

/-- Behind tokens that have been read, it is enough to look at what is left of an `L`. -/
theorem Reports.after (h : Reports K rest e) (hbefore : Before ts ls rest) (hL : ∀ us, L (ts ++ us) ↔ K us) :
    Reports L ls e := by
  obtain ⟨read, rfl, rfl⟩ := hbefore
  cases e with
  | unexpectedToken p x shown =>
    obtain ⟨front, t, back, rfl, htext, hviable, hdead⟩ := h
    refine ⟨read ++ front, t, back, (List.append_assoc ..).symm, htext, ?_, fun us => ?_⟩
    · rw [List.map_append]
      exact hviable.append hL
    · rw [List.map_append, List.append_assoc, hL]
      exact hdead us
  | unexpectedEnd x =>
    obtain ⟨hnot, hviable⟩ := h
    rw [Reports, List.map_append]
    exact ⟨by rwa [hL], hviable.append hL⟩
  | invalidCharacter p c => exact h
  | _ => trivial

/-- More lists may be allowed, as long as none of them starts with the first token. -/
theorem Reports.mono {f : Located} (h : Reports K (f :: ls) e) (hK : ∀ ts, K ts → L ts)
    (hL : ∀ us, L (f.token :: us) → K (f.token :: us)) : Reports L (f :: ls) e := by
  have hviable {ts : List Token} (h : Viable K ts) : Viable L ts := by
    obtain ⟨us, hus, h⟩ := h
    exact ⟨us, hus, hK _ h⟩
  cases e with
  | unexpectedToken p x shown =>
    obtain ⟨front, t, back, heq, htext, hfront, hdead⟩ := h
    refine ⟨front, t, back, heq, htext, hviable hfront, fun us hus => hdead us ?_⟩
    cases front with
    | nil =>
      obtain ⟨rfl, -⟩ := List.cons.inj heq
      exact hL us hus
    | cons g front =>
      obtain ⟨rfl, -⟩ := List.cons.inj heq
      exact hL _ hus
  | unexpectedEnd x => exact ⟨fun hls => h.1 (hL _ hls), hviable h.2⟩
  | invalidCharacter p c => exact h
  | _ => trivial

theorem reports_unexpected {f : Located} {x : Expected} (hL : Viable L []) (hdead : ∀ us, ¬L (f.token :: us)) :
    Reports L (f :: ls) (unexpected x f) :=
  ⟨[], f.token, ls, rfl, rfl, hL, hdead⟩

theorem reports_end {x : Expected} (hL : Viable L []) (hnil : ¬L []) : Reports L [] (.unexpectedEnd x) := ⟨hnil, hL⟩

/-! ## What may follow -/

/-- A token of the class `C`, then a `K`. -/
def Then (C : Token → Prop) (K : List Token → Prop) : List Token → Prop
  | [] => False
  | t :: ts => C t ∧ K ts

def IsIndex (t : Token) : Prop := ∃ ds, t = .integer ds

def IsLiteral (t : Token) : Prop := ∃ l : Literal, t = l.token

/-- An angle, then a `K`. -/
def Signed (K : List Token → Prop) : List Token → Prop
  | .plus :: ts => Then IsLiteral K ts
  | .minus :: ts => Then IsLiteral K ts
  | ts => Then IsLiteral K ts

/-- A gate, then a `K`. -/
def Calls (K : List Token → Prop) : List Token → Prop
  | .axis _ :: ts => Then (· = .leftParen) (Then IsIndex (Then (· = .comma) (Signed (Then (· = .rightParen) K)))) ts
  | .cx :: ts => Then (· = .leftParen) (Then IsIndex (Then (· = .comma) (Then IsIndex (Then (· = .rightParen) K)))) ts
  | _ => False

theorem exists_of_then (h : Then C K ts) : ∃ t us, ts = t :: us ∧ C t ∧ K us := by
  cases ts with
  | nil => cases h
  | cons t us => exact ⟨t, us, rfl, h⟩

theorem viable_then (hC : C t) (ht : t.IsWritable) (hK : Viable K []) : Viable (Then C K) [] := by
  obtain ⟨us, hus, hK⟩ := hK
  exact ⟨t :: us, List.forall_mem_cons.2 ⟨ht, hus⟩, hC, hK⟩

theorem viable_punctuation (c : Char) (hc : punctuation? c = some t) (hK : Viable K []) : Viable (Then (· = t) K) [] :=
  viable_then rfl ⟨[c], .punctuation hc⟩ hK

theorem isWritable_zero : (Token.integer ['0']).IsWritable :=
  ⟨['0'], .integer ⟨List.cons_ne_nil _ _, List.forall_mem_singleton.2 rfl⟩⟩

theorem viable_index (hK : Viable K []) : Viable (Then IsIndex K) [] := viable_then ⟨['0'], rfl⟩ isWritable_zero hK

theorem viable_literal (hK : Viable K []) : Viable (Then IsLiteral K) [] :=
  viable_then ⟨.integer ['0'], rfl⟩ isWritable_zero hK

theorem signed_tokens (s : Sign) (l : Literal) (us : List Token) : Signed K (s.tokens ++ l.token :: us) ↔ K us := by
  have hliteral : IsLiteral l.token := ⟨l, rfl⟩
  cases s with
  | absent => cases l <;> exact and_iff_right hliteral
  | plus => exact and_iff_right hliteral
  | minus => exact and_iff_right hliteral

theorem exists_of_signed (h : Signed K ts) :
    ∃ (s : Sign) (l : Literal) (us : List Token), ts = s.tokens ++ l.token :: us ∧ K us := by
  obtain ⟨s, us, rfl, hthen⟩ : ∃ (s : Sign) (us : List Token), ts = s.tokens ++ us ∧ Then IsLiteral K us := by
    unfold Signed at h
    split at h
    · exact ⟨.plus, _, rfl, h⟩
    · exact ⟨.minus, _, rfl, h⟩
    · exact ⟨.absent, _, rfl, h⟩
  obtain ⟨_, us, rfl, ⟨l, rfl⟩, hK⟩ := exists_of_then hthen
  exact ⟨s, l, us, rfl, hK⟩

theorem signed_of_then (h : Then IsLiteral K ts) : Signed K ts := by
  obtain ⟨_, us, rfl, ⟨l, rfl⟩, hK⟩ := exists_of_then h
  exact (signed_tokens .absent l us).2 hK

theorem viable_signed (hK : Viable K []) : Viable (Signed K) [] := by
  obtain ⟨us, hus, h⟩ := viable_literal hK
  exact ⟨us, hus, signed_of_then h⟩

theorem calls_tokens (phrase : Phrase) (us : List Token) : Calls K (phrase.tokens ++ us) ↔ K us := by
  cases phrase with
  | rotation a i s l =>
    have htokens : (Phrase.rotation a i s l).tokens ++ us =
        .axis a :: .leftParen :: .integer i :: .comma :: (s.tokens ++ l.token :: .rightParen :: us) := by
      simp [Phrase.tokens]
    simp [htokens, Calls, Then, IsIndex, signed_tokens]
  | cx c t => simp [Phrase.tokens, Calls, Then, IsIndex]

theorem exists_of_calls (h : Calls K ts) : ∃ (phrase : Phrase) (us : List Token), ts = phrase.tokens ++ us ∧ K us := by
  unfold Calls at h
  split at h
  · next a ts =>
    obtain ⟨_, ts₁, rfl, rfl, h₁⟩ := exists_of_then h
    obtain ⟨_, ts₂, rfl, ⟨i, rfl⟩, h₂⟩ := exists_of_then h₁
    obtain ⟨_, ts₃, rfl, rfl, h₃⟩ := exists_of_then h₂
    obtain ⟨s, l, ts₄, rfl, h₄⟩ := exists_of_signed h₃
    obtain ⟨_, us, rfl, rfl, hK⟩ := exists_of_then h₄
    exact ⟨.rotation a i s l, us, by simp [Phrase.tokens], hK⟩
  · obtain ⟨_, ts₁, rfl, rfl, h₁⟩ := exists_of_then h
    obtain ⟨_, ts₂, rfl, ⟨c, rfl⟩, h₂⟩ := exists_of_then h₁
    obtain ⟨_, ts₃, rfl, rfl, h₃⟩ := exists_of_then h₂
    obtain ⟨_, ts₄, rfl, ⟨t, rfl⟩, h₄⟩ := exists_of_then h₃
    obtain ⟨_, us, rfl, rfl, hK⟩ := exists_of_then h₄
    exact ⟨.cx c t, us, rfl, hK⟩
  · cases h

theorem viable_calls (hK : Viable K []) : Viable (Calls K) [] := by
  have htarget := viable_index (viable_punctuation ')' rfl hK)
  have hcontrol := viable_index (viable_punctuation ',' rfl htarget)
  obtain ⟨us, hus, h⟩ := viable_punctuation '(' rfl hcontrol
  exact ⟨.cx :: us, List.forall_mem_cons.2 ⟨⟨_, .cx⟩, hus⟩, h⟩

/-! ## What the readers report -/

theorem before_singleton {n : Nat} : Before [t] (⟨t, n⟩ :: rest) rest := before_cons.2 ⟨n, rest, rfl, before_nil.2 rfl⟩

section Readers

variable {β : Type} (hK : Viable K [])

include hK

theorem reports_expect_bind {k : List Located → Except ParseError β} (c : Char) (hc : punctuation? c = some t)
    (h : (expect t ls >>= k) = .error e) (hk : ∀ rest, expect t ls = .ok rest → k rest = .error e → Reports K rest e) :
    Reports (Then (· = t) K) ls e := by
  rcases bind_eq_error.1 h with h | ⟨rest, hrest, h⟩
  · have hviable := viable_punctuation c hc hK
    cases ls with
    | nil =>
      cases h
      exact reports_end hviable id
    | cons f ls =>
      simp only [expect] at h
      split at h
      · cases h
      · next hf =>
        cases h
        exact reports_unexpected hviable fun us hus => hf hus.1
  · refine (hk rest hrest h).after (expect_eq_ok_iff.1 hrest) fun us => ?_
    simp [Then]

theorem reports_qubit_bind {k : Qubit × List Located → Except ParseError β} (h : (qubit ls >>= k) = .error e)
    (hk : ∀ q rest, k (q, rest) = .error e → Reports K rest e) : Reports (Then IsIndex K) ls e := by
  rcases bind_eq_error.1 h with h | ⟨⟨q, rest⟩, hrest, h⟩
  · cases ls with
    | nil =>
      cases h
      exact reports_end (viable_index hK) id
    | cons f ls =>
      simp only [qubit] at h
      split at h
      · split at h
        · cases h
        · cases h
          trivial
      · next hf =>
        cases h
        refine reports_unexpected (viable_index hK) ?_
        rintro us ⟨⟨ds, hds⟩, -⟩
        exact hf ds hds
  · obtain ⟨ds, hbefore, -⟩ := qubit_eq_ok_iff.1 hrest
    exact (hk q rest h).after hbefore fun us => and_iff_right ⟨ds, rfl⟩

/-- Where no literal can stand for an angle. -/
theorem reports_magnitude (h : magnitude ls = .error e) : Reports (Then IsLiteral K) ls e := by
  cases ls with
  | nil =>
    cases h
    exact reports_end (viable_literal hK) id
  | cons f ls =>
    simp only [magnitude] at h
    split at h
    · cases h
    · cases h
    · next hdecimal hinteger =>
      cases h
      refine reports_unexpected (viable_literal hK) ?_
      rintro us ⟨⟨l, hl⟩, -⟩
      cases l with
      | integer ds => exact hinteger ds hl
      | decimal v => exact hdecimal v hl

theorem reports_angle_bind {k : Float × List Located → Except ParseError β} (h : (angle ls >>= k) = .error e)
    (hk : ∀ v rest, k (v, rest) = .error e → Reports K rest e) : Reports (Signed K) ls e := by
  rcases bind_eq_error.1 h with h | ⟨⟨v, rest⟩, hrest, h⟩
  · cases ls with
    | nil =>
      cases h
      exact reports_end (viable_signed hK) id
    | cons f ls =>
      obtain ⟨t, n⟩ := f
      have hmagnitude : magnitude (⟨t, n⟩ :: ls) = .error e → Reports (Then IsLiteral K) (⟨t, n⟩ :: ls) e :=
        reports_magnitude hK
      cases t with
      | minus =>
        obtain h | ⟨_, _, h⟩ := bind_eq_error.1 h
        · exact (reports_magnitude hK h).after before_singleton fun us => Iff.rfl
        · cases h
      | plus => exact (reports_magnitude hK h).after before_singleton fun us => Iff.rfl
      | _ => exact (hmagnitude h).mono (fun ts => signed_of_then) fun us => id
  · obtain ⟨s, l, hbefore, -⟩ := angle_eq_ok_iff.1 hrest
    refine (hk v rest h).after hbefore fun us => ?_
    rw [List.append_assoc]
    exact signed_tokens s l us

theorem reports_rotation {a : Axis} (h : rotation a ls = .error e) :
    Reports (Then (· = .leftParen) (Then IsIndex (Then (· = .comma) (Signed (Then (· = .rightParen) K))))) ls e := by
  have hclose := viable_punctuation ')' rfl hK
  have hangle := viable_signed hclose
  have hcomma := viable_punctuation ',' rfl hangle
  have hindex := viable_index hcomma
  refine reports_expect_bind hindex '(' rfl h fun ls _ h => ?_
  refine reports_qubit_bind hcomma h fun q ls h => ?_
  refine reports_expect_bind hangle ',' rfl h fun ls _ h => ?_
  refine reports_angle_bind hclose h fun θ ls h => ?_
  exact reports_expect_bind hK ')' rfl h fun ls _ h => by cases h

theorem reports_cx (h : cx ls = .error e) :
    Reports (Then (· = .leftParen) (Then IsIndex (Then (· = .comma) (Then IsIndex (Then (· = .rightParen) K))))) ls e := by
  have hclose := viable_punctuation ')' rfl hK
  have htarget := viable_index hclose
  have hcomma := viable_punctuation ',' rfl htarget
  have hindex := viable_index hcomma
  refine reports_expect_bind hindex '(' rfl h fun ls _ h => ?_
  refine reports_qubit_bind hcomma h fun control ls h => ?_
  refine reports_expect_bind htarget ',' rfl h fun ls _ h => ?_
  refine reports_qubit_bind hclose h fun target ls h => ?_
  refine reports_expect_bind hK ')' rfl h fun ls _ h => ?_
  split at h
  · cases h
  · cases h
    trivial

theorem reports_gate_bind {k : Gate Float × List Located → Except ParseError β} (h : (gate ls >>= k) = .error e)
    (hk : ∀ g rest, gate ls = .ok (g, rest) → k (g, rest) = .error e → Reports K rest e) : Reports (Calls K) ls e := by
  rcases bind_eq_error.1 h with h | ⟨⟨g, rest⟩, hrest, h⟩
  · cases ls with
    | nil =>
      cases h
      exact reports_end (viable_calls hK) id
    | cons f ls =>
      obtain ⟨t, n⟩ := f
      cases t with
      | axis a => exact (reports_rotation hK h).after before_singleton fun us => Iff.rfl
      | cx => exact (reports_cx hK h).after before_singleton fun us => Iff.rfl
      | identifier name =>
        cases h
        trivial
      | _ =>
        cases h
        exact reports_unexpected (viable_calls hK) fun us => id
  · obtain ⟨phrase, hbefore, -⟩ := gate_eq_ok_iff.1 hrest
    exact (hk g rest hrest h).after hbefore (calls_tokens phrase)

end Readers

/-! ## Programs -/

/-- The tokens are those of a program. -/
def IsProgram (ts : List Token) : Prop := ∃ d : Derivation, d.tokens = ts

/-- The tokens are those of gates separated by commas. -/
def IsGates (ts : List Token) : Prop := ∃ first more, Derivation.separated first more = ts

/-- What may follow a gate: nothing, or a comma and more gates. -/
def IsMore (ts : List Token) : Prop := ts = [] ∨ Then (· = .comma) IsGates ts

theorem isGates_iff : IsGates ts ↔ Calls IsMore ts := by
  constructor
  · rintro ⟨first, more, rfl⟩
    cases more with
    | nil =>
      have hcalls := (calls_tokens first []).2 (show IsMore [] from .inl rfl)
      rwa [List.append_nil] at hcalls
    | cons next more => exact (calls_tokens first _).2 (.inr ⟨rfl, next, more, rfl⟩)
  · intro h
    obtain ⟨first, us, rfl, rfl | hmore⟩ := exists_of_calls h
    · exact ⟨first, [], by simp [Derivation.separated]⟩
    · obtain ⟨_, _, rfl, rfl, next, more, rfl⟩ := exists_of_then hmore
      exact ⟨first, next :: more, rfl⟩

theorem viable_isMore : Viable IsMore [] := ⟨[], by simp, .inl rfl⟩

theorem viable_isGates : Viable IsGates [] := by
  obtain ⟨us, hus, h⟩ := viable_calls viable_isMore
  exact ⟨us, hus, isGates_iff.2 h⟩

theorem reports_gates {fuel : Nat} (hfuel : ls.length ≤ fuel) (h : gates fuel ls = .error e) : Reports IsGates ls e := by
  -- The induction is on the fuel, which never runs out in front of a token.
  induction fuel generalizing ls with
  | zero =>
    obtain rfl : ls = [] := by simpa using hfuel
    cases h
    exact reports_end viable_isGates isGates_iff.1
  | succ fuel ih =>
    have hcalls : Reports (Calls IsMore) ls e := by
      refine reports_gate_bind viable_isMore h fun g rest hgate h => ?_
      cases rest with
      | nil => cases h
      | cons f rest =>
        have hcomma : Reports (Then (· = .comma) IsGates) (f :: rest) e := by
          refine reports_expect_bind viable_isGates ',' rfl h fun rest' hcomma h => ?_
          obtain hgates | ⟨_, _, h⟩ := bind_eq_error.1 h
          · have hread := (gate_eq_ok_iff.1 hgate).choose_spec.1.length_eq
            have hread' := (expect_eq_ok_iff.1 hcomma).length_eq
            simp only [List.length_cons, List.length_nil] at hread hread'
            exact ih (by omega) hgates
          · cases h
        exact hcomma.mono (fun ts => .inr) fun us hus => hus.resolve_left (List.cons_ne_nil _ _)
    exact hcalls.after (before_nil.2 rfl) fun us => isGates_iff

theorem isProgram_leftBracket {us : List Token} :
    IsProgram (.leftBracket :: us) ↔ Then (· = .rightBracket) (· = []) us := by
  constructor
  · rintro ⟨d, hd⟩
    cases d with
    | empty => cases hd
    | brackets =>
      cases hd
      exact ⟨rfl, rfl⟩
    | gates first more =>
      obtain ⟨t, ts, hsep, ht⟩ := Derivation.separated_eq_cons first more
      exact absurd (List.cons.inj (hsep.symm.trans hd)).1 ht
  · intro h
    obtain ⟨_, _, rfl, rfl, rfl⟩ := exists_of_then h
    exact ⟨.brackets, rfl⟩

theorem isGates_of_isProgram {us : List Token} (h : IsProgram (t :: us)) (ht : t ≠ .leftBracket) : IsGates (t :: us) := by
  obtain ⟨d, hd⟩ := h
  cases d with
  | empty => cases hd
  | brackets => exact absurd (List.cons.inj hd).1.symm ht
  | gates first more => exact ⟨first, more, hd⟩

/-- **An error of the parser** says where the tokens stop being the beginning of a program. -/
theorem reports_program (h : program ls = .error e) : Reports IsProgram ls e := by
  cases ls with
  | nil => cases h
  | cons f ls =>
    obtain ⟨t, n⟩ := f
    have hgates (ht : t ≠ .leftBracket) (h : gates (ls.length + 1) (⟨t, n⟩ :: ls) = .error e) :
        Reports IsProgram (⟨t, n⟩ :: ls) e := by
      refine (reports_gates (by simp) h).mono ?_ fun us hus => isGates_of_isProgram hus ht
      rintro ts ⟨first, more, rfl⟩
      exact ⟨.gates first more, rfl⟩
    cases t with
    | leftBracket =>
      have hend : Viable (· = []) [] := ⟨[], by simp, rfl⟩
      have hclose : Reports (Then (· = .rightBracket) (· = [])) ls e := by
        refine reports_expect_bind hend ']' rfl h fun rest _ h => ?_
        cases rest with
        | nil => cases h
        | cons f rest =>
          cases h
          exact reports_unexpected hend fun us => List.cons_ne_nil _ us
      exact hclose.after before_singleton fun us => isProgram_leftBracket
    | _ => exact hgates (by simp) h

/-! ## Sources -/

/-- A token of a source is that of a lexeme. -/
theorem exists_lexeme_of_located {lexemes : List Lexeme} {front back : List Located} {p : Nat}
    (h : located lexemes = .ok (front ++ ⟨t, p⟩ :: back)) :
    ∃ (before after : List Lexeme) (l : Lexeme), lexemes = before ++ l :: after ∧
      before.map Lexeme.token = (front.map Located.token).map .ok ∧ l.token = .ok t ∧ l.start = p := by
  have hmap := map_of_located h
  rw [List.map_append, List.map_cons] at hmap
  obtain ⟨before, behind, rfl, hbefore, hbehind⟩ := List.map_eq_append_iff.1 hmap
  obtain ⟨l, after, rfl, hl, -⟩ := List.map_eq_cons_iff.1 hbehind
  obtain ⟨htoken, hstart⟩ := Prod.mk.inj hl
  have htokens := congrArg (List.map Prod.fst) hbefore
  rw [List.map_map, List.map_map] at htokens
  exact ⟨before, after, l, rfl, by rwa [List.map_map], htoken, hstart⟩

/-- The lexer's error is that of the first character that starts no token. -/
theorem exists_of_located_eq_error {lexemes : List Lexeme} (h : located lexemes = .error e) :
    ∃ (before after : List Lexeme) (l : Lexeme) (c : Char), lexemes = before ++ l :: after ∧
      (∀ b ∈ before, ∃ t, b.token = .ok t) ∧ l.token = .error c ∧ e = .invalidCharacter l.start c := by
  induction lexemes with
  | nil => cases h
  | cons l lexemes ih =>
    unfold located at h
    split at h
    · next c hc =>
      cases h
      exact ⟨[], lexemes, l, c, rfl, by simp, hc, rfl⟩
    · next t ht =>
      obtain h | ⟨_, _, h⟩ := bind_eq_error.1 h
      · obtain ⟨before, after, m, c, rfl, hbefore, hm, rfl⟩ := ih h
        exact ⟨l :: before, after, m, c, rfl, List.forall_mem_cons.2 ⟨⟨t, ht⟩, hbefore⟩, hm, rfl⟩
      · cases h

/-- How a token that is written as `text` is shown: a number with a point or an exponent by its value, and unless that is
infinite in a word for the same number; every other token as it is written. -/
def ShownAs (text : List Char) (shown : String) : Token → Prop
  | .decimal v => shown = Decimal.plain v ∧
      (v.isFinite = true → ∃ l : Literal, Spells shown.toList l.token ∧ l.value = v)
  | _ => shown.toList = text

theorem shownAs_decimal (d : Decimal) (text : List Char) :
    ShownAs text (Token.decimal d.toFloat).text (.decimal d.toFloat) := by
  refine ⟨rfl, fun hfinite => ?_⟩
  obtain ⟨l, hvalue, hspells, -⟩ := exists_literal (Decimal.shortest .up d.toFloat)
  have hsign := d.isNegative_toFloat
  have hchars : (Token.decimal d.toFloat).text.toList = (Decimal.shortest .up d.toFloat).positional := by
    rw [Token.text, String.toList_ofList, Token.chars, Decimal.plainChars_of_isFinite hfinite, Decimal.signed, hsign]
    rfl
  refine ⟨l, hchars ▸ hspells, ?_⟩
  rw [hvalue, Decimal.toFloat_shortest .up hfinite, Binary64.abs_of_not_isNegative hsign]

theorem Spells.shownAs_text {text : List Char} (h : Spells text t) : ShownAs text t.text t := by
  rcases h.chars_eq with ⟨rfl, hother⟩ | ⟨d, rfl⟩
  · cases t with
    | decimal v => exact absurd rfl (hother v)
    | _ => exact String.toList_ofList
  · exact shownAs_decimal d text

/-- The token `t` is written at the byte `p` of a source and is shown as `shown`. -/
def WrittenAt (source : String) (p : Nat) (t : Token) (shown : String) : Prop :=
  ∃ front text back, source.toList = front ++ (text ++ back) ∧ byteSize front = p ∧ Spells text t ∧ ShownAs text shown t

theorem writtenAt_of_mem {source : String} {l : Lexeme} (hl : l ∈ lexemes source.toList) (ht : l.token = .ok t) :
    WrittenAt source l.start t t.text := by
  obtain ⟨front, text, back, hsource, hstart, -, hwritten⟩ := (cuts_lexemes source.toList).exists_text hl
  rw [ht] at hwritten
  exact ⟨front, text, back, hsource, by rw [hstart, Nat.zero_add], hwritten, Spells.shownAs_text hwritten⟩

/-- The message about an unexpected token ends with the text of the token. -/
theorem exists_message (p : Nat) (x : Expected) (shown : String) :
    ∃ words, (ParseError.unexpectedToken p x shown).message = words ++ shown := ⟨_, rfl⟩

theorem exists_char_of_mem {source : String} {l : Lexeme} {c : Char} (hl : l ∈ lexemes source.toList)
    (hc : l.token = .error c) : ∃ front back, source.toList = front ++ c :: back ∧ byteSize front = l.start := by
  obtain ⟨front, text, back, hsource, hstart, -, hwritten⟩ := (cuts_lexemes source.toList).exists_text hl
  rw [hc] at hwritten
  obtain rfl : text = [c] := hwritten
  exact ⟨front, back, hsource, by rw [hstart, Nat.zero_add]⟩

/-- An error is the lexer's, or it is the parser's and all characters belong to tokens. -/
theorem parse_eq_error_cases {source : String} (h : parse source = .error e) :
    (∃ (before after : List Lexeme) (l : Lexeme) (c : Char), lexemes source.toList = before ++ l :: after ∧
      (∀ b ∈ before, ∃ t, b.token = .ok t) ∧ l.token = .error c ∧ e = .invalidCharacter l.start c) ∨
    ∃ ls, located (lexemes source.toList) = .ok ls ∧ Reports IsProgram ls e := by
  obtain h | ⟨ls, hls, h⟩ := bind_eq_error.1 h
  · exact .inl (exists_of_located_eq_error h)
  · exact .inr ⟨ls, hls, reports_program h⟩

theorem exists_invalidCharacter {source : String} {l : Lexeme} {c : Char} (hl : l ∈ lexemes source.toList)
    (hc : l.token = .error c) : ∃ p d, parse source = .error (.invalidCharacter p d) := by
  cases h : located (lexemes source.toList) with
  | ok ls =>
    have hmem := List.mem_map_of_mem (f := Lexeme.token) hl
    rw [map_token_of_located h, hc] at hmem
    simp at hmem
  | error e =>
    obtain ⟨before, after, m, d, -, -, -, rfl⟩ := exists_of_located_eq_error h
    exact ⟨m.start, d, by rw [parse, parseChars, h]; rfl⟩

/-- **Errors point at the right place.** The parser reports a character that starts no token if and only if there is one, and
then the first of them, where it is written, whatever stands in front of it. An unexpected token is reported where it is
written, and its text ends the message; the tokens in front of it are the beginning of a program and with it they are not.
When the end comes too early, the tokens are no program, but the beginning of one. -/
theorem parse_error_located (source : String) :
    ((∃ p c, parse source = .error (.invalidCharacter p c)) ↔ ∃ l ∈ lexemes source.toList, ∃ c, l.token = .error c) ∧
      (∀ p c, parse source = .error (.invalidCharacter p c) →
        ∃ (before after : List Lexeme) (l : Lexeme), lexemes source.toList = before ++ l :: after ∧
          (∀ b ∈ before, ∃ t, b.token = .ok t) ∧ l.token = .error c ∧ l.start = p ∧
          ∃ front back, source.toList = front ++ c :: back ∧ byteSize front = p) ∧
      (∀ p x shown, parse source = .error (.unexpectedToken p x shown) →
        ∃ (before after : List Lexeme) (l : Lexeme) (ts : List Token) (t : Token),
          lexemes source.toList = before ++ l :: after ∧ before.map Lexeme.token = ts.map .ok ∧
          l.token = .ok t ∧ l.start = p ∧ shown = t.text ∧ WrittenAt source p t shown ∧
          (∃ words, (ParseError.unexpectedToken p x shown).message = words ++ shown) ∧
          Viable IsProgram ts ∧ ∀ us, ¬IsProgram (ts ++ t :: us)) ∧
      ∀ x, parse source = .error (.unexpectedEnd x) →
        ∃ ts, (lexemes source.toList).map Lexeme.token = ts.map .ok ∧ ¬IsProgram ts ∧ Viable IsProgram ts := by
  refine ⟨⟨?_, ?_⟩, ?_, ?_, ?_⟩
  · rintro ⟨p, c, h⟩
    obtain ⟨before, after, l, d, heq, -, hl, -⟩ | ⟨ls, -, hreports⟩ := parse_eq_error_cases h
    · exact ⟨l, by simp [heq], d, hl⟩
    · cases hreports
  · rintro ⟨l, hl, c, hc⟩
    exact exists_invalidCharacter hl hc
  · intro p c h
    obtain ⟨before, after, l, d, heq, hbefore, hl, he⟩ | ⟨ls, -, hreports⟩ := parse_eq_error_cases h
    · cases he
      exact ⟨before, after, l, heq, hbefore, hl, rfl, exists_char_of_mem (by simp [heq]) hl⟩
    · cases hreports
  · intro p x shown h
    obtain ⟨before, after, l, d, -, -, -, he⟩ | ⟨ls, hls, front, t, back, rfl, rfl, hviable, hdead⟩ :=
      parse_eq_error_cases h
    · cases he
    · obtain ⟨before, after, l, heq, hbefore, hl, rfl⟩ := exists_lexeme_of_located hls
      have hmem : l ∈ lexemes source.toList := by simp [heq]
      exact ⟨before, after, l, _, t, heq, hbefore, hl, rfl, rfl, writtenAt_of_mem hmem hl, exists_message .., hviable, hdead⟩
  · intro x h
    obtain ⟨before, after, l, d, -, -, -, he⟩ | ⟨ls, hls, hnot, hviable⟩ := parse_eq_error_cases h
    · cases he
    · exact ⟨_, map_token_of_located hls, hnot, hviable⟩

/-- A character that starts no token behind a misplaced parenthesis, a fraction as an index, and a missing angle. The
fraction is written `1.50` and shown as `1.5`. -/
theorem parse_error_located_misplaced :
    (parse "X) é" = .error (.invalidCharacter 3 'é') ∧
      ∃ (before after : List Lexeme) (l : Lexeme), lexemes "X) é".toList = before ++ l :: after ∧
        (∀ b ∈ before, ∃ t, b.token = .ok t) ∧ l.token = .error 'é' ∧ l.start = 3 ∧
          ∃ front back, "X) é".toList = front ++ 'é' :: back ∧ byteSize front = 3) ∧
    (parse "X(0, 90), Y(1.50, 90)" = .error (.unexpectedToken 12 .qubitIndex "1.5") ∧
      ∃ (before after : List Lexeme) (l : Lexeme) (ts : List Token) (t : Token),
        lexemes "X(0, 90), Y(1.50, 90)".toList = before ++ l :: after ∧ before.map Lexeme.token = ts.map .ok ∧
        l.token = .ok t ∧ l.start = 12 ∧ "1.5" = t.text ∧ WrittenAt "X(0, 90), Y(1.50, 90)" 12 t "1.5" ∧
        (∃ words, (ParseError.unexpectedToken 12 .qubitIndex "1.5").message = words ++ "1.5") ∧
        Viable IsProgram ts ∧ ∀ us, ¬IsProgram (ts ++ t :: us)) ∧
    parse "X(0, " = .error (.unexpectedEnd .angle) ∧
      ∃ ts, (lexemes "X(0, ".toList).map Lexeme.token = ts.map .ok ∧ ¬IsProgram ts ∧ Viable IsProgram ts := by
  have hinvalid : parse "X) é" = .error (.invalidCharacter 3 'é') := rfl
  have hmisplaced : parse "X(0, 90), Y(1.50, 90)" = .error (.unexpectedToken 12 .qubitIndex "1.5") := by decide +kernel
  have hend : parse "X(0, " = .error (.unexpectedEnd .angle) := rfl
  exact ⟨⟨hinvalid, (parse_error_located _).2.1 _ _ hinvalid⟩,
    ⟨hmisplaced, (parse_error_located _).2.2.1 _ _ _ hmisplaced⟩, hend, (parse_error_located _).2.2.2 _ hend⟩

end RotationCircuits.Text
