import RotationCircuits.Proofs.Outcome
import RotationCircuits.Text.Notation

/-!
# The grammar of circuit notation

    program := (empty) | "[" "]" | gate ("," gate)*
    gate    := ("X" | "Y" | "Z") "(" index "," angle ")" | "CX" "(" index "," index ")"
    angle   := ("+" | "-")? (integer | decimal)

A `Derivation` is a tree of this grammar. It has the tokens at its leaves, from left to right, and it denotes gates unless
an index is too large or a pair of qubits is none for a CX. The parser accepts exactly the tokens of derivations that
denote gates, and gives these gates (`parse_eq_ok_iff_derivation`). Every reader of the parser is described by one `iff`:
what it has read in front of the rest.
-/

namespace RotationCircuits.Text

/-! ## Derivations -/

/-- A number without sign, as it is written. -/
inductive Literal where
  | integer (digits : List Char)
  | decimal (value : Float)

/-- The sign of an angle. -/
inductive Sign where
  | absent
  | plus
  | minus

/-- A gate as it is written. -/
inductive Phrase where
  | rotation (axis : Axis) (index : List Char) (sign : Sign) (literal : Literal)
  | cx (control target : List Char)

/-- A derivation of a program. -/
inductive Derivation where
  | empty
  | brackets
  | gates (first : Phrase) (more : List Phrase)

namespace Literal

def token : Literal → Token
  | integer ds => .integer ds
  | decimal v => .decimal v

def value : Literal → Float
  | integer ds => (Decimal.ofParts ds [] 0).toFloat
  | decimal v => v

end Literal

namespace Sign

def tokens : Sign → List Token
  | absent => []
  | plus => [.plus]
  | minus => [.minus]

def apply : Sign → Float → Float
  | minus, v => -v
  | _, v => v

end Sign

/-- The qubit of an index, which has to be below `2 ^ 32`. -/
def index? (digits : List Char) : Option Qubit :=
  if Decimal.ofDigits digits < UInt32.size then some ⟨.ofNat (Decimal.ofDigits digits)⟩ else none

namespace Phrase

def tokens : Phrase → List Token
  | rotation a i s l => [.axis a, .leftParen, .integer i, .comma] ++ (s.tokens ++ [l.token] ++ [.rightParen])
  | cx c t => [.cx, .leftParen, .integer c, .comma, .integer t, .rightParen]

/-- The gate that is written; a CX only on `(0, 1)` or `(1, 0)`. -/
def gate? : Phrase → Option (Gate Float)
  | rotation a i s l => do return .rotation a (← index? i) (s.apply l.value)
  | cx c t => do
    let control ← index? c
    let target ← index? t
    if Gate.IsPair control target then some (.cx control target) else none

theorem gate?_rotation_eq_some_iff {a : Axis} {i : List Char} {s : Sign} {l : Literal} {g : Gate Float} :
    (rotation a i s l).gate? = some g ↔ ∃ q, index? i = some q ∧ .rotation a q (s.apply l.value) = g := by
  simp [gate?, Option.bind_eq_some_iff]

theorem gate?_cx_eq_some_iff {c t : List Char} {g : Gate Float} :
    (cx c t).gate? = some g ↔
      ∃ control, index? c = some control ∧ ∃ target, index? t = some target ∧
        Gate.IsPair control target ∧ .cx control target = g := by
  simp [gate?, Option.bind_eq_some_iff]

end Phrase

namespace Derivation

/-- Phrases separated by commas. -/
def separated : Phrase → List Phrase → List Token
  | first, [] => first.tokens
  | first, next :: more => first.tokens ++ .comma :: separated next more

theorem separated_eq_cons (first : Phrase) (more : List Phrase) :
    ∃ t ts, separated first more = t :: ts ∧ t ≠ .leftBracket := by
  cases first <;> cases more <;> simp [separated, Phrase.tokens]

theorem separated_ne_nil (first : Phrase) (more : List Phrase) : separated first more ≠ [] := by
  obtain ⟨t, ts, h, -⟩ := separated_eq_cons first more
  simp [h]

/-- The tokens at the leaves. -/
def tokens : Derivation → List Token
  | empty => []
  | brackets => [.leftBracket, .rightBracket]
  | gates first more => separated first more

def phrases : Derivation → List Phrase
  | gates first more => first :: more
  | _ => []

/-- The gates that are denoted, in their order. -/
def gates? (d : Derivation) : Option (List (Gate Float)) := d.phrases.mapM Phrase.gate?

end Derivation

/-! ## Where a phrase ends -/

/-- A phrase shows where it ends. -/
theorem Phrase.tokens_append_inj {a b : Phrase} {ts us : List Token} (h : a.tokens ++ ts = b.tokens ++ us) :
    a = b ∧ ts = us := by
  cases a with
  | cx c t =>
    cases b with
    | cx c' t' => simpa [tokens, and_assoc] using h
    | rotation a' i' s' l' => simp [tokens] at h
  | rotation a i s l =>
    cases b with
    | cx c' t' => simp [tokens] at h
    | rotation a' i' s' l' =>
      obtain ⟨rfl, rfl, h⟩ := by simpa [tokens] using h
      cases s <;> cases s' <;> cases l <;> cases l' <;> simp_all [Sign.tokens, Literal.token]

namespace Derivation

/-- Only a comma can follow a list of gates that is continued. -/
theorem eq_comma_of_separated_append {first first' : Phrase} {more more' : List Phrase} {t : Token} {us : List Token}
    (h : separated first more ++ t :: us = separated first' more') : t = .comma := by
  induction more generalizing first first' more' with
  | nil =>
    cases more' with
    | nil =>
      have := Phrase.tokens_append_inj (h.trans (List.append_nil _).symm)
      simp at this
    | cons next' more' =>
      have := Phrase.tokens_append_inj h
      simp_all
  | cons next more ih =>
    cases more' with
    | nil =>
      simp only [separated, List.append_assoc] at h
      have := Phrase.tokens_append_inj (h.trans (List.append_nil _).symm)
      simp at this
    | cons next' more' =>
      simp only [separated, List.append_assoc] at h
      have := (Phrase.tokens_append_inj h).2
      exact ih (by simpa using this)

theorem eq_comma_of_tokens_append {first : Phrase} {more : List Phrase} {d : Derivation} {t : Token} {us : List Token}
    (h : (gates first more).tokens ++ t :: us = d.tokens) : t = .comma := by
  obtain ⟨u, vs, hsep, hu⟩ := separated_eq_cons first more
  cases d with
  | empty => simp [tokens, hsep] at h
  | brackets => simp [tokens, hsep, hu] at h
  | gates first' more' => exact eq_comma_of_separated_append h

/-- Gates end with a closing parenthesis. -/
theorem exists_separated_eq_concat (first : Phrase) (more : List Phrase) :
    ∃ us, separated first more = us ++ [.rightParen] := by
  induction more generalizing first with
  | nil =>
    cases first with
    | rotation a i s l => exact ⟨[.axis a, .leftParen, .integer i, .comma] ++ (s.tokens ++ [l.token]), by
        simp [separated, Phrase.tokens]⟩
    | cx c t => exact ⟨[.cx, .leftParen, .integer c, .comma, .integer t], rfl⟩
  | cons next more ih =>
    obtain ⟨us, hus⟩ := ih next
    exact ⟨first.tokens ++ .comma :: us, by simp [separated, hus]⟩

theorem tokens_ne_concat_comma (d : Derivation) (us : List Token) : d.tokens ≠ us ++ [.comma] := by
  intro h
  have hlast := congrArg List.getLast? h
  cases d with
  | empty => simp [tokens] at hlast
  | brackets => simp [tokens] at hlast
  | gates first more =>
    obtain ⟨vs, hvs⟩ := exists_separated_eq_concat first more
    simp [tokens, hvs] at hlast

theorem tokens_ne_brackets_append (d : Derivation) (t : Token) (us : List Token) :
    d.tokens ≠ .leftBracket :: .rightBracket :: t :: us := by
  intro h
  cases d with
  | empty => simp [tokens] at h
  | brackets => simp [tokens] at h
  | gates first more =>
    obtain ⟨u, vs, hsep, hu⟩ := separated_eq_cons first more
    simp [tokens, hsep, hu] at h

end Derivation

/-! ## What the readers accept -/

/-- The tokens `ts` stand in front of `rest`. -/
def Before (ts : List Token) (ls rest : List Located) : Prop :=
  ∃ front, ls = front ++ rest ∧ front.map Located.token = ts

variable {ts us : List Token} {ls rest : List Located}

@[simp]
theorem before_nil : Before [] ls rest ↔ ls = rest := by simp [Before]

theorem before_cons {t : Token} : Before (t :: ts) ls rest ↔ ∃ n mid, ls = ⟨t, n⟩ :: mid ∧ Before ts mid rest := by
  constructor
  · rintro ⟨front, rfl, h⟩
    obtain ⟨⟨u, n⟩, front, rfl, rfl, hfront⟩ := List.map_eq_cons_iff.1 h
    exact ⟨n, front ++ rest, rfl, front, rfl, hfront⟩
  · rintro ⟨n, mid, rfl, front, rfl, rfl⟩
    exact ⟨⟨t, n⟩ :: front, rfl, rfl⟩

theorem before_append : Before (ts ++ us) ls rest ↔ ∃ mid, Before ts ls mid ∧ Before us mid rest := by
  constructor
  · rintro ⟨front, rfl, h⟩
    obtain ⟨f₁, f₂, rfl, rfl, rfl⟩ := List.map_eq_append_iff.1 h
    exact ⟨f₂ ++ rest, ⟨f₁, by simp, rfl⟩, f₂, rfl, rfl⟩
  · rintro ⟨mid, ⟨f₁, rfl, rfl⟩, f₂, rfl, rfl⟩
    exact ⟨f₁ ++ f₂, by simp, by simp⟩

theorem Before.append {mid : List Located} (h₁ : Before ts ls mid) (h₂ : Before us mid rest) :
    Before (ts ++ us) ls rest :=
  before_append.2 ⟨mid, h₁, h₂⟩

theorem Before.length_eq (h : Before ts ls rest) : ls.length = ts.length + rest.length := by
  obtain ⟨front, rfl, rfl⟩ := h
  simp

/-- All tokens are used up when nothing is left. -/
theorem before_end : Before ts ls [] ↔ ls.map Located.token = ts := by simp [Before]

theorem expect_eq_ok_iff {t : Token} : expect t ls = .ok rest ↔ Before [t] ls rest := by
  cases ls with
  | nil => simp [expect, before_cons]
  | cons f ls =>
    obtain ⟨u, n⟩ := f
    by_cases h : u = t <;> simp [expect, before_cons, h]

theorem qubit_eq_ok_iff {q : Qubit} :
    qubit ls = .ok (q, rest) ↔ ∃ ds, Before [.integer ds] ls rest ∧ index? ds = some q := by
  cases ls with
  | nil => simp [qubit, before_cons]
  | cons f ls =>
    obtain ⟨u, n⟩ := f
    cases u with
    | integer ds =>
      by_cases h : Decimal.ofDigits ds < UInt32.size
      · simp [qubit, before_cons, index?, and_assoc, h, and_comm]
      · simp [qubit, before_cons, index?, and_assoc, h]
    | _ => simp [qubit, before_cons]

theorem magnitude_eq_ok_iff {v : Float} :
    magnitude ls = .ok (v, rest) ↔ ∃ l : Literal, Before [l.token] ls rest ∧ l.value = v := by
  constructor
  · intro h
    cases ls with
    | nil => cases h
    | cons f ls =>
      obtain ⟨u, n⟩ := f
      cases u with
      | integer ds =>
        obtain ⟨rfl, rfl⟩ := by simpa [magnitude] using h
        exact ⟨.integer ds, before_cons.2 ⟨n, ls, rfl, before_nil.2 rfl⟩, rfl⟩
      | decimal w =>
        obtain ⟨rfl, rfl⟩ := by simpa [magnitude] using h
        exact ⟨.decimal w, before_cons.2 ⟨n, ls, rfl, before_nil.2 rfl⟩, rfl⟩
      | _ => cases h
  · rintro ⟨l, hl, rfl⟩
    obtain ⟨n, mid, rfl, hmid⟩ := before_cons.1 hl
    rw [before_nil.1 hmid]
    cases l <;> rfl

theorem angle_eq_ok_iff {v : Float} :
    angle ls = .ok (v, rest) ↔
      ∃ (s : Sign) (l : Literal), Before (s.tokens ++ [l.token]) ls rest ∧ s.apply l.value = v := by
  constructor
  · intro h
    unfold angle at h
    split at h
    · rename_i n ls
      obtain ⟨⟨w, rest'⟩, hw, h⟩ := bind_eq_ok.1 h
      cases h
      obtain ⟨l, hl, rfl⟩ := magnitude_eq_ok_iff.1 hw
      exact ⟨.minus, l, before_cons.2 ⟨n, ls, rfl, hl⟩, rfl⟩
    · rename_i n ls
      obtain ⟨l, hl, rfl⟩ := magnitude_eq_ok_iff.1 h
      exact ⟨.plus, l, before_cons.2 ⟨n, ls, rfl, hl⟩, rfl⟩
    · obtain ⟨l, hl, rfl⟩ := magnitude_eq_ok_iff.1 h
      exact ⟨.absent, l, hl, rfl⟩
  · rintro ⟨s, l, h, rfl⟩
    cases s with
    | absent =>
      have hl := magnitude_eq_ok_iff.2 ⟨l, h, rfl⟩
      obtain ⟨n, mid, rfl, -⟩ := before_cons.1 h
      cases l <;> exact hl
    | plus =>
      obtain ⟨n, mid, rfl, hl⟩ := before_cons.1 h
      exact magnitude_eq_ok_iff.2 ⟨l, hl, rfl⟩
    | minus =>
      obtain ⟨n, mid, rfl, hl⟩ := before_cons.1 h
      exact bind_eq_ok.2 ⟨_, magnitude_eq_ok_iff.2 ⟨l, hl, rfl⟩, rfl⟩

theorem rotation_eq_ok_iff {a : Axis} {g : Gate Float} :
    rotation a ls = .ok (g, rest) ↔
      ∃ i s l, Before ([.leftParen, .integer i, .comma] ++ (s.tokens ++ [l.token] ++ [.rightParen])) ls rest ∧
        (Phrase.rotation a i s l).gate? = some g := by
  simp only [Phrase.gate?_rotation_eq_some_iff]
  constructor
  · intro h
    obtain ⟨ls₁, h₁, h⟩ := bind_eq_ok.1 h
    obtain ⟨⟨q, ls₂⟩, h₂, h⟩ := bind_eq_ok.1 h
    obtain ⟨ls₃, h₃, h⟩ := bind_eq_ok.1 h
    obtain ⟨⟨θ, ls₄⟩, h₄, h⟩ := bind_eq_ok.1 h
    obtain ⟨ls₅, h₅, h⟩ := bind_eq_ok.1 h
    cases h
    obtain ⟨i, hi, hq⟩ := qubit_eq_ok_iff.1 h₂
    obtain ⟨s, l, hl, rfl⟩ := angle_eq_ok_iff.1 h₄
    rw [expect_eq_ok_iff] at h₁ h₃ h₅
    exact ⟨i, s, l, ((h₁.append hi).append h₃).append (hl.append h₅), q, hq, rfl⟩
  · rintro ⟨i, s, l, h, q, hq, rfl⟩
    obtain ⟨ls₃, hfront, hback⟩ := before_append.1 h
    obtain ⟨ls₁, h₁, hfront⟩ := (@before_append [_] _ _ _).1 hfront
    obtain ⟨ls₂, hi, h₃⟩ := (@before_append [_] _ _ _).1 hfront
    obtain ⟨ls₄, hl, h₅⟩ := before_append.1 hback
    rw [← expect_eq_ok_iff] at h₁ h₃ h₅
    simp only [rotation, bind_eq_ok]
    exact ⟨_, h₁, _, qubit_eq_ok_iff.2 ⟨i, hi, hq⟩, _, h₃, _, angle_eq_ok_iff.2 ⟨s, l, hl, rfl⟩, _, h₅, rfl⟩

theorem cx_eq_ok_iff {g : Gate Float} :
    cx ls = .ok (g, rest) ↔
      ∃ c t, Before [.leftParen, .integer c, .comma, .integer t, .rightParen] ls rest ∧ (Phrase.cx c t).gate? = some g := by
  simp only [Phrase.gate?_cx_eq_some_iff]
  constructor
  · intro h
    obtain ⟨ls₁, h₁, h⟩ := bind_eq_ok.1 h
    obtain ⟨⟨control, ls₂⟩, h₂, h⟩ := bind_eq_ok.1 h
    obtain ⟨ls₃, h₃, h⟩ := bind_eq_ok.1 h
    obtain ⟨⟨target, ls₄⟩, h₄, h⟩ := bind_eq_ok.1 h
    obtain ⟨ls₅, h₅, h⟩ := bind_eq_ok.1 h
    obtain ⟨c, hc, hcontrol⟩ := qubit_eq_ok_iff.1 h₂
    obtain ⟨t, ht, htarget⟩ := qubit_eq_ok_iff.1 h₄
    rw [expect_eq_ok_iff] at h₁ h₃ h₅
    by_cases hpair : Gate.IsPair control target
    · rw [Gate.checkedCx_eq_ok_iff.2 ⟨hpair, rfl⟩] at h
      cases h
      exact ⟨c, t, (((h₁.append hc).append h₃).append ht).append h₅, control, hcontrol, target, htarget, hpair, rfl⟩
    · rw [Gate.checkedCx, if_neg hpair] at h
      cases h
  · rintro ⟨c, t, h, control, hcontrol, target, htarget, hpair, rfl⟩
    obtain ⟨ls₁, h₁, h⟩ := (@before_append [_] _ _ _).1 h
    obtain ⟨ls₂, hc, h⟩ := (@before_append [_] _ _ _).1 h
    obtain ⟨ls₃, h₃, h⟩ := (@before_append [_] _ _ _).1 h
    obtain ⟨ls₄, ht, h₅⟩ := (@before_append [_] _ _ _).1 h
    rw [← expect_eq_ok_iff] at h₁ h₃ h₅
    simp only [cx, bind_eq_ok]
    refine ⟨_, h₁, _, qubit_eq_ok_iff.2 ⟨c, hc, hcontrol⟩, _, h₃, _, qubit_eq_ok_iff.2 ⟨t, ht, htarget⟩, _, h₅, ?_⟩
    rw [Gate.checkedCx_eq_ok_iff.2 ⟨hpair, rfl⟩]
    rfl

theorem gate_eq_ok_iff {g : Gate Float} :
    gate ls = .ok (g, rest) ↔ ∃ phrase : Phrase, Before phrase.tokens ls rest ∧ phrase.gate? = some g := by
  constructor
  · intro h
    cases ls with
    | nil => cases h
    | cons f ls =>
      obtain ⟨u, n⟩ := f
      cases u with
      | axis a =>
        obtain ⟨i, s, l, hbefore, hg⟩ := rotation_eq_ok_iff.1 h
        exact ⟨.rotation a i s l, before_cons.2 ⟨n, ls, rfl, hbefore⟩, hg⟩
      | cx =>
        obtain ⟨c, t, hbefore, hg⟩ := cx_eq_ok_iff.1 h
        exact ⟨.cx c t, before_cons.2 ⟨n, ls, rfl, hbefore⟩, hg⟩
      | _ => cases h
  · rintro ⟨phrase, hbefore, hg⟩
    cases phrase with
    | rotation a i s l =>
      obtain ⟨n, mid, rfl, hmid⟩ := before_cons.1 hbefore
      exact rotation_eq_ok_iff.2 ⟨i, s, l, hmid, hg⟩
    | cx c t =>
      obtain ⟨n, mid, rfl, hmid⟩ := before_cons.1 hbefore
      exact cx_eq_ok_iff.2 ⟨c, t, hmid, hg⟩

/-- One round of the reader: a gate, and then the end or a comma and more gates. -/
theorem gates_succ_eq_ok_iff {fuel : Nat} {gs : List (Gate Float)} :
    gates (fuel + 1) ls = .ok gs ↔
      ∃ (first : Phrase) (g : Gate Float), first.gate? = some g ∧
        (Before first.tokens ls [] ∧ gs = [g] ∨
          ∃ mid more, Before (first.tokens ++ [.comma]) ls mid ∧ gates fuel mid = .ok more ∧ gs = g :: more) := by
  constructor
  · intro h
    obtain ⟨⟨g, ls₁⟩, hgate, h⟩ := bind_eq_ok.1 h
    obtain ⟨first, hfirst, hg⟩ := gate_eq_ok_iff.1 hgate
    refine ⟨first, g, hg, ?_⟩
    cases ls₁ with
    | nil =>
      cases h
      exact .inl ⟨hfirst, rfl⟩
    | cons f ls₁ =>
      obtain ⟨mid, hcomma, h⟩ := bind_eq_ok.1 h
      obtain ⟨more, hmore, h⟩ := bind_eq_ok.1 h
      cases h
      exact .inr ⟨mid, more, hfirst.append (expect_eq_ok_iff.1 hcomma), hmore, rfl⟩
  · rintro ⟨first, g, hg, ⟨hfirst, rfl⟩ | ⟨mid, more, hfront, hmore, rfl⟩⟩
    · exact bind_eq_ok.2 ⟨_, gate_eq_ok_iff.2 ⟨first, hfirst, hg⟩, rfl⟩
    · obtain ⟨ls₁, hfirst, hcomma⟩ := before_append.1 hfront
      have hexpect := expect_eq_ok_iff.2 hcomma
      obtain ⟨n, ls₂, rfl, -⟩ := before_cons.1 hcomma
      refine bind_eq_ok.2 ⟨_, gate_eq_ok_iff.2 ⟨first, hfirst, hg⟩, ?_⟩
      exact bind_eq_ok.2 ⟨mid, hexpect, bind_eq_ok.2 ⟨more, hmore, rfl⟩⟩

/-- The tokens are those of gates separated by commas, and these are the gates. -/
def Derivation.Lists (ls : List Located) (gs : List (Gate Float)) : Prop :=
  ∃ first more, Before (separated first more) ls [] ∧ (first :: more).mapM Phrase.gate? = some gs

/-- The same round in the grammar. -/
theorem Derivation.lists_iff {gs : List (Gate Float)} :
    Lists ls gs ↔
      ∃ (first : Phrase) (g : Gate Float), first.gate? = some g ∧
        (Before first.tokens ls [] ∧ gs = [g] ∨
          ∃ mid more, Before (first.tokens ++ [.comma]) ls mid ∧ Lists mid more ∧ gs = g :: more) := by
  constructor
  · rintro ⟨first, more, h, hgs⟩
    rw [List.mapM_cons] at hgs
    obtain ⟨g, hg, hgs⟩ := Option.bind_eq_some_iff.1 hgs
    obtain ⟨gs', hgs', hgs⟩ := Option.bind_eq_some_iff.1 hgs
    cases hgs
    refine ⟨first, g, hg, ?_⟩
    cases more with
    | nil =>
      cases hgs'
      exact .inl ⟨h, rfl⟩
    | cons next more =>
      rw [separated, ← List.singleton_append, ← List.append_assoc] at h
      obtain ⟨mid, hfront, hmore⟩ := before_append.1 h
      exact .inr ⟨mid, gs', hfront, ⟨next, more, hmore, hgs'⟩, rfl⟩
  · rintro ⟨first, g, hg, ⟨hfirst, rfl⟩ | ⟨mid, gs', hfront, ⟨next, more, hmore, hgs'⟩, rfl⟩⟩
    · exact ⟨first, [], hfirst, by simp [hg]⟩
    · refine ⟨first, next :: more, ?_, by simp [hg, hgs']⟩
      simpa [separated] using hfront.append hmore

theorem gates_eq_ok_iff {fuel : Nat} (hfuel : ls.length ≤ fuel) {gs : List (Gate Float)} :
    gates fuel ls = .ok gs ↔ Derivation.Lists ls gs := by
  -- The induction is on the fuel: each comma uses up a token, so there is enough of it for the gates that follow.
  induction fuel generalizing ls gs with
  | zero =>
    refine iff_of_false (fun h => by cases h) ?_
    rintro ⟨first, more, h, -⟩
    have hlength := h.length_eq
    have hpos := List.length_pos_iff.2 (Derivation.separated_ne_nil first more)
    omega
  | succ fuel ih =>
    rw [gates_succ_eq_ok_iff, Derivation.lists_iff]
    refine exists₂_congr fun first g => and_congr_right fun _ => or_congr_right ?_
    refine exists₂_congr fun mid more => and_congr_right fun hfront => and_congr_left fun _ => ih ?_
    have hlength := hfront.length_eq
    simp only [List.length_append, List.length_singleton] at hlength
    omega

theorem program_eq_ok_iff {gs : List (Gate Float)} :
    program ls = .ok gs ↔ ∃ d : Derivation, Before d.tokens ls [] ∧ d.gates? = some gs := by
  constructor
  · intro h
    unfold program at h
    split at h
    · cases h
      exact ⟨.empty, before_nil.2 rfl, rfl⟩
    · rename_i n ls
      obtain ⟨ls₁, hclose, h⟩ := bind_eq_ok.1 h
      cases ls₁ with
      | nil =>
        cases h
        exact ⟨.brackets, before_cons.2 ⟨n, ls, rfl, expect_eq_ok_iff.1 hclose⟩, rfl⟩
      | cons f ls₁ => cases h
    · obtain ⟨first, more, hbefore, hgs⟩ := (gates_eq_ok_iff (Nat.le_refl _)).1 h
      exact ⟨.gates first more, hbefore, hgs⟩
  · rintro ⟨d, hbefore, hgs⟩
    cases d with
    | empty =>
      cases before_nil.1 hbefore
      cases hgs
      rfl
    | brackets =>
      obtain ⟨n, mid, rfl, hmid⟩ := before_cons.1 hbefore
      cases hgs
      simp only [program, bind_eq_ok]
      exact ⟨[], expect_eq_ok_iff.2 hmid, rfl⟩
    | gates first more =>
      have hgates := (gates_eq_ok_iff (Nat.le_refl ls.length)).2 ⟨first, more, hbefore, hgs⟩
      -- The first token is the name of a gate, so the reader takes neither of the two short ways.
      obtain ⟨t, ts, hts, hbracket⟩ := Derivation.separated_eq_cons first more
      rw [show (Derivation.gates first more).tokens = t :: ts from hts] at hbefore
      obtain ⟨n, mid, rfl, -⟩ := before_cons.1 hbefore
      unfold program
      split <;> simp_all

/-! ## Sources -/

theorem located_eq_ok {lexemes : List Lexeme} {ts : List Token} (h : lexemes.map Lexeme.token = ts.map .ok) :
    ∃ ls, located lexemes = .ok ls ∧ ls.map Located.token = ts := by
  induction lexemes generalizing ts with
  | nil =>
    rw [List.map_nil, eq_comm, List.map_eq_nil_iff] at h
    exact ⟨[], rfl, h.symm⟩
  | cons l lexemes ih =>
    rw [List.map_cons, eq_comm] at h
    obtain ⟨t, ts, rfl, ht, hts⟩ := List.map_eq_cons_iff.1 h
    obtain ⟨ls, hls, rfl⟩ := ih hts.symm
    refine ⟨⟨t, l.start⟩ :: ls, ?_, rfl⟩
    rw [located, ← ht]
    exact bind_eq_ok.2 ⟨ls, hls, rfl⟩

/-- The parser sees the tokens of a source only. -/
theorem parse_eq_program {source : String} {ts : List Token}
    (h : (lexemes source.toList).map Lexeme.token = ts.map .ok) :
    ∃ ls, ls.map Located.token = ts ∧ parse source = program ls := by
  obtain ⟨ls, hls, hts⟩ := located_eq_ok h
  refine ⟨ls, hts, ?_⟩
  rw [parse, parseChars, hls]
  rfl

/-- The tokens of a source, with the places of their lexemes. -/
theorem map_of_located {lexemes : List Lexeme} {ls : List Located} (h : located lexemes = .ok ls) :
    lexemes.map (fun l => (l.token, l.start)) = ls.map fun m => (.ok m.token, m.start) := by
  induction lexemes generalizing ls with
  | nil =>
    cases h
    rfl
  | cons l lexemes ih =>
    unfold located at h
    split at h
    · cases h
    · next t ht =>
      obtain ⟨ls', hls, h⟩ := bind_eq_ok.1 h
      cases h
      rw [List.map_cons, ht, ih hls]
      rfl

theorem map_token_of_located {lexemes : List Lexeme} {ls : List Located} (h : located lexemes = .ok ls) :
    lexemes.map Lexeme.token = (ls.map Located.token).map .ok := by
  have htokens := congrArg (List.map Prod.fst) (map_of_located h)
  rw [List.map_map, List.map_map] at htokens
  rw [List.map_map]
  exact htokens

/-- A parsed source is cut into the tokens of a derivation. -/
theorem exists_derivation_of_parse {source : String} {gs : List (Gate Float)} (h : parse source = .ok gs) :
    ∃ d : Derivation, (lexemes source.toList).map Lexeme.token = d.tokens.map .ok ∧ d.gates? = some gs := by
  obtain ⟨ls, hls, h⟩ := bind_eq_ok.1 h
  obtain ⟨d, hd, hgs⟩ := program_eq_ok_iff.1 h
  refine ⟨d, ?_, hgs⟩
  rw [map_token_of_located hls, before_end.1 hd]

/-- **The parser accepts exactly its grammar.** A source whose tokens are `ts` is parsed to the gates `gs` if and only if
`ts` has a derivation that denotes `gs`. So a comma at the end, gates without a comma between them, tokens after the last
gate, and anything after `[]` are rejected. -/
theorem parse_eq_ok_iff_derivation {source : String} {ts : List Token}
    (h : (lexemes source.toList).map Lexeme.token = ts.map .ok) :
    (∀ gs, parse source = .ok gs ↔ ∃ d : Derivation, d.tokens = ts ∧ d.gates? = some gs) ∧
      (∀ us, ts = us ++ [.comma] → ∀ gs, parse source ≠ .ok gs) ∧
      (∀ first more t us, ts = (Derivation.gates first more).tokens ++ t :: us → t ≠ .comma →
        ∀ gs, parse source ≠ .ok gs) ∧
      ∀ t us, ts = .leftBracket :: .rightBracket :: t :: us → ∀ gs, parse source ≠ .ok gs := by
  have hiff : ∀ gs, parse source = .ok gs ↔ ∃ d : Derivation, d.tokens = ts ∧ d.gates? = some gs := by
    intro gs
    obtain ⟨ls, hts, hparse⟩ := parse_eq_program h
    simp only [hparse, program_eq_ok_iff, before_end, hts]
    exact exists_congr fun d => and_congr_left fun _ => eq_comm
  refine ⟨hiff, ?_, ?_, ?_⟩
  · rintro us hts gs hgs
    obtain ⟨d, hd, -⟩ := (hiff gs).1 hgs
    exact d.tokens_ne_concat_comma us (hd.trans hts)
  · rintro first more t us hts ht gs hgs
    obtain ⟨d, hd, -⟩ := (hiff gs).1 hgs
    exact ht (Derivation.eq_comma_of_tokens_append (hts.symm.trans hd.symm))
  · rintro t us hts gs hgs
    obtain ⟨d, hd, -⟩ := (hiff gs).1 hgs
    exact d.tokens_ne_brackets_append t us (hd.trans hts)

/-- The tokens of a program with blanks, leading zeros, a sign and an exponent. -/
def spacedTokens : List Token :=
  [.axis .x, .leftParen, .integer ['0', '0', '7'], .comma, .minus, .decimal 150.0, .rightParen, .comma,
    .cx, .leftParen, .integer ['1'], .comma, .integer ['0'], .rightParen]

/-- The tokens of two gates without a comma between them. -/
def unseparatedTokens : List Token :=
  [.axis .x, .leftParen, .integer ['0'], .comma, .integer ['9', '0'], .rightParen,
    .axis .y, .leftParen, .integer ['0'], .comma, .integer ['9', '0'], .rightParen]

theorem parse_eq_ok_iff_derivation_spaced :
    (lexemes " X(007 ,-1.5e2) , CX(1,0)\n".toList).map Lexeme.token = spacedTokens.map .ok ∧
      parse " X(007 ,-1.5e2) , CX(1,0)\n" = .ok [.rotation .x ⟨7⟩ (-150.0), .cx ⟨1⟩ ⟨0⟩] ∧
      (lexemes "X(0, 90) Y(0, 90)".toList).map Lexeme.token = unseparatedTokens.map .ok ∧
      ∀ gs, parse "X(0, 90) Y(0, 90)" ≠ .ok gs := by
  have hspaced : (lexemes " X(007 ,-1.5e2) , CX(1,0)\n".toList).map Lexeme.token = spacedTokens.map .ok := rfl
  have hmissing : (lexemes "X(0, 90) Y(0, 90)".toList).map Lexeme.token = unseparatedTokens.map .ok := rfl
  refine ⟨hspaced, ?_, hmissing, ?_⟩
  · exact ((parse_eq_ok_iff_derivation hspaced).1 _).2 ⟨.gates
      (.rotation .x ['0', '0', '7'] .minus (.decimal 150.0)) [.cx ['1'] ['0']], rfl, rfl⟩
  · exact (parse_eq_ok_iff_derivation hmissing).2.2.1 (.rotation .x ['0'] .absent (.integer ['9', '0'])) [] (.axis .y) _
      rfl (by decide)

end RotationCircuits.Text
