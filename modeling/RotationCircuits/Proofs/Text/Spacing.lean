import RotationCircuits.Proofs.Text.Spans
import RotationCircuits.Text.Notation

/-!
# Spacing

Blanks may be inserted at the start of a source, at its end and between any two neighbouring lexemes. One insertion moves the
lexemes behind it and changes nothing else (`Cuts.insert`): no word has a blank in it, so the longest word at each place is
still the longest. Moving tokens changes the outcome of the parser only in the positions of errors (`program_map`). So
however often blanks are inserted, the tokens stay and the parser gives the same gates, or the same error at the same token
(`parse_respaced`).
-/

namespace RotationCircuits.Text

/-! ## Inserting blanks -/

namespace Lexeme

/-- The lexeme, `k` bytes further on. -/
def shift (k : Nat) (l : Lexeme) : Lexeme := { l with start := l.start + k, stop := l.stop + k }

/-- The lexeme after `k` bytes are inserted at the byte `p`. -/
def shiftFrom (p k : Nat) (l : Lexeme) : Lexeme := if p ≤ l.start then l.shift k else l

end Lexeme

variable {n k : Nat} {c : Char} {cs front back blanks : List Char} {ls : List Lexeme}

theorem Cuts.shift (h : Cuts n cs ls) (k : Nat) : Cuts (n + k) cs (ls.map (Lexeme.shift k)) := by
  induction h with
  | nil => exact .nil
  | blank hblank _ ih => exact .blank hblank (by rwa [Nat.add_right_comm])
  | @lexeme n c cs ls hlexeme _ ih =>
    have hshift : (lexemeAt n c cs).shift k = lexemeAt (n + k) c cs := by
      simp only [Lexeme.shift, lexemeAt, Nat.add_right_comm]
    rw [List.map_cons, hshift]
    exact .lexeme hlexeme (by rwa [Nat.add_right_comm])

theorem Cuts.append_blanks (hblanks : ∀ c ∈ blanks, isBlank c = true) (h : Cuts (n + byteSize blanks) cs ls) :
    Cuts n (blanks ++ cs) ls := by
  induction blanks generalizing n with
  | nil => exact h
  | cons c blanks ih =>
    obtain ⟨hc, hblanks⟩ := List.forall_mem_cons.1 hblanks
    exact .blank hc (ih hblanks (by rwa [Nat.add_assoc]))

/-- Blanks in front of all the rest. -/
theorem Cuts.insert_front (h : Cuts n cs ls) (hblanks : ∀ c ∈ blanks, isBlank c = true) :
    Cuts n (blanks ++ cs) (ls.map (Lexeme.shiftFrom n (byteSize blanks))) := by
  have hshift : ls.map (Lexeme.shiftFrom n (byteSize blanks)) = ls.map (Lexeme.shift (byteSize blanks)) :=
    List.map_congr_left fun l hl => if_pos (h.le_start hl)
  rw [hshift]
  exact .append_blanks hblanks (h.shift _)

/-- Inserted blanks offer nothing new in front of them. -/
theorem isPrefix_of_insert {text : List Char} (hblanks : ∀ c ∈ blanks, isBlank c = true)
    (h : text <+: front ++ (blanks ++ back)) (htext : ∀ d ∈ text, isBlank d = false) : text <+: front ++ back := by
  obtain ⟨tail, htail⟩ := h
  obtain ⟨middle, rfl, -⟩ | ⟨middle, rfl, hmiddle⟩ := List.append_eq_append_iff.1 htail
  · exact ⟨middle ++ back, (List.append_assoc ..).symm⟩
  · refine (List.prefix_append_right_inj front).2 ?_
    cases blanks with
    | nil => exact ⟨tail, hmiddle.symm⟩
    | cons b blanks =>
      cases middle with
      | nil => exact List.nil_prefix
      | cons b' middle =>
        obtain ⟨rfl, -⟩ := List.cons.inj hmiddle
        have hblank := hblanks b List.mem_cons_self
        simp [htext b (by simp)] at hblank

/-- A step that ends in front of the inserted blanks is as before, and leaves a place for them in its rest. -/
theorem exists_scan_insert (hends : byteSize (scan c (front ++ back)).covered ≤ byteSize (c :: front))
    (hblanks : ∀ c ∈ blanks, isBlank c = true) :
    ∃ tail, (scan c (front ++ back)).rest = tail ++ back ∧ (scan c (front ++ back)).covered ++ tail = c :: front ∧
      scan c (front ++ (blanks ++ back)) =
        ⟨(scan c (front ++ back)).token, (scan c (front ++ back)).covered, tail ++ (blanks ++ back)⟩ := by
  rcases hscan : scan c (front ++ back) with ⟨token, covered, rest⟩
  have happend : (scan c (front ++ back)).covered ++ (scan c (front ++ back)).rest = c :: front ++ back := scan_append ..
  obtain ⟨covered, hcovered⟩ := exists_covered_eq_cons c (front ++ back)
  rw [hscan] at hends happend hcovered
  subst hcovered
  obtain ⟨tail, htail⟩ := isPrefix_of_byteSize_le happend hends
  obtain rfl : covered ++ tail = front := by simpa using htail
  obtain rfl : rest = tail ++ back := by simpa using happend
  refine ⟨tail, rfl, rfl, ?_⟩
  rw [List.append_assoc]
  exact scan_eq_of_isPrefix hscan fun _ => isPrefix_of_insert hblanks

/-- **Inserting blanks.** Blanks that are inserted outside of all lexemes move the lexemes behind them, and nothing else. -/
theorem Cuts.insert (h : Cuts n cs ls) (hcs : cs = front ++ back) (hblanks : ∀ c ∈ blanks, isBlank c = true)
    (houtside : ∀ l ∈ ls, n + byteSize front ≤ l.start ∨ l.stop ≤ n + byteSize front) :
    Cuts n (front ++ (blanks ++ back)) (ls.map (Lexeme.shiftFrom (n + byteSize front) (byteSize blanks))) := by
  induction h generalizing front with
  | nil =>
    obtain ⟨rfl, rfl⟩ := List.append_eq_nil_iff.1 hcs.symm
    exact Cuts.nil.insert_front hblanks
  | @blank n c cs ls hc h ih =>
    cases front with
    | nil =>
      rw [List.nil_append] at hcs
      exact hcs ▸ (Cuts.blank hc h).insert_front hblanks
    | cons d front =>
      obtain ⟨rfl, rfl⟩ := List.cons.inj hcs
      rw [byteSize, ← Nat.add_assoc] at houtside ⊢
      exact .blank hc (ih rfl houtside)
  | @lexeme n c cs ls hc h ih =>
    cases front with
    | nil =>
      rw [List.nil_append] at hcs
      exact hcs ▸ (Cuts.lexeme hc h).insert_front hblanks
    | cons d front =>
      obtain ⟨rfl, rfl⟩ : c = d ∧ cs = front ++ back := by simpa using hcs
      have hpos := byteSize_pos (List.cons_ne_nil c front)
      -- The first lexeme starts in front of the blanks, so it ends there too.
      have hends : byteSize (scan c (front ++ back)).covered ≤ byteSize (c :: front) := by
        have hhead := houtside _ List.mem_cons_self
        simp only [lexemeAt] at hhead
        omega
      obtain ⟨tail, hrest, hfront, hscan⟩ := exists_scan_insert hends hblanks
      have hhead : (lexemeAt n c (front ++ back)).shiftFrom (n + byteSize (c :: front)) (byteSize blanks) =
          lexemeAt n c (front ++ (blanks ++ back)) := by
        rw [Lexeme.shiftFrom, if_neg (by simp only [lexemeAt]; omega)]
        simp only [lexemeAt, hscan]
      rw [List.map_cons, hhead, List.cons_append]
      refine .lexeme hc ?_
      rw [← hfront, byteSize_append, ← Nat.add_assoc] at houtside ⊢
      rw [hscan]
      exact ih hrest fun l hl => houtside l (List.mem_cons_of_mem _ hl)

/-! ## Moving tokens -/

/-- The error with its position moved, if it has one. -/
def ParseError.relocate (f : Nat → Nat) : ParseError → ParseError
  | invalidCharacter p c => .invalidCharacter (f p) c
  | unexpectedToken p e t => .unexpectedToken (f p) e t
  | e => e

/-- The token at its new place. -/
def Located.relocate (f : Nat → Nat) (l : Located) : Located := { l with start := f l.start }

/-- The outcome of a reader with all positions moved; `g` moves those in a value. -/
def moved {α : Type} (f : Nat → Nat) (g : α → α) : Except ParseError α → Except ParseError α
  | .ok a => .ok (g a)
  | .error e => .error (e.relocate f)

section Readers

variable {α β : Type} (f : Nat → Nat) {g : α → α} {h : β → β}

theorem moved_bind {x : Except ParseError α} {k k' : α → Except ParseError β} (hk : ∀ a, k' (g a) = moved f h (k a)) :
    (moved f g x >>= k') = moved f h (x >>= k) := by
  cases x with
  | ok a => exact hk a
  | error e => rfl

/-- The rest of the tokens behind a value that was read. -/
abbrev moveRest (x : α × List Located) : α × List Located := (x.1, x.2.map (Located.relocate f))

theorem expect_map (t : Token) (ls : List Located) :
    expect t (ls.map (Located.relocate f)) = moved f (List.map (Located.relocate f)) (expect t ls) := by
  cases ls with
  | nil => rfl
  | cons l ls =>
    simp only [List.map_cons, expect, Located.relocate]
    split <;> rfl

theorem qubit_map (ls : List Located) :
    qubit (ls.map (Located.relocate f)) = moved f (moveRest f) (qubit ls) := by
  cases ls with
  | nil => rfl
  | cons l ls =>
    simp only [List.map_cons, qubit, Located.relocate]
    split
    · split <;> rfl
    · rfl

theorem magnitude_map (ls : List Located) :
    magnitude (ls.map (Located.relocate f)) = moved f (moveRest f) (magnitude ls) := by
  cases ls with
  | nil => rfl
  | cons l ls =>
    simp only [List.map_cons, magnitude, Located.relocate]
    split <;> rfl

theorem angle_map (ls : List Located) :
    angle (ls.map (Located.relocate f)) = moved f (moveRest f) (angle ls) := by
  cases ls with
  | nil => rfl
  | cons l ls =>
    obtain ⟨t, n⟩ := l
    have hmagnitude := magnitude_map f (⟨t, n⟩ :: ls)
    cases t with
    | minus =>
      simp only [List.map_cons, Located.relocate, angle]
      rw [magnitude_map]
      exact moved_bind f fun _ => rfl
    | plus => exact magnitude_map f ls
    | _ => exact hmagnitude

theorem rotation_map (a : Axis) (ls : List Located) :
    rotation a (ls.map (Located.relocate f)) = moved f (moveRest f) (rotation a ls) := by
  unfold rotation
  rw [expect_map]
  refine moved_bind f fun ls => ?_
  rw [qubit_map]
  refine moved_bind f fun ⟨q, ls⟩ => ?_
  dsimp only
  rw [expect_map]
  refine moved_bind f fun ls => ?_
  rw [angle_map]
  refine moved_bind f fun ⟨θ, ls⟩ => ?_
  dsimp only
  rw [expect_map]
  exact moved_bind f fun ls => rfl

theorem cx_map (ls : List Located) : cx (ls.map (Located.relocate f)) = moved f (moveRest f) (cx ls) := by
  unfold cx
  rw [expect_map]
  refine moved_bind f fun ls => ?_
  rw [qubit_map]
  refine moved_bind f fun ⟨control, ls⟩ => ?_
  dsimp only
  rw [expect_map]
  refine moved_bind f fun ls => ?_
  rw [qubit_map]
  refine moved_bind f fun ⟨target, ls⟩ => ?_
  dsimp only
  rw [expect_map]
  refine moved_bind f fun ls => ?_
  split <;> rfl

theorem gate_map (ls : List Located) : gate (ls.map (Located.relocate f)) = moved f (moveRest f) (gate ls) := by
  cases ls with
  | nil => rfl
  | cons l ls =>
    obtain ⟨t, n⟩ := l
    cases t with
    | axis a => exact rotation_map f a ls
    | cx => exact cx_map f ls
    | _ => rfl

theorem gates_map (fuel : Nat) (ls : List Located) :
    gates fuel (ls.map (Located.relocate f)) = moved f id (gates fuel ls) := by
  induction fuel generalizing ls with
  | zero => rfl
  | succ fuel ih =>
    unfold gates
    rw [gate_map]
    refine moved_bind f fun ⟨g, ls⟩ => ?_
    cases ls with
    | nil => rfl
    | cons l ls =>
      change (expect .comma ((l :: ls).map (Located.relocate f)) >>= _) = _
      rw [expect_map]
      refine moved_bind f fun ls => ?_
      rw [ih]
      exact moved_bind f fun gs => rfl

/-- Positions play no part in reading a program. -/
theorem program_map (ls : List Located) :
    program (ls.map (Located.relocate f)) = moved f id (program ls) := by
  cases ls with
  | nil => rfl
  | cons l ls =>
    obtain ⟨t, n⟩ := l
    have hgates : gates ((ls.map (Located.relocate f)).length + 1) ((⟨t, n⟩ :: ls).map (Located.relocate f)) =
        moved f id (gates (ls.length + 1) (⟨t, n⟩ :: ls)) := by
      rw [List.length_map]
      exact gates_map f _ _
    cases t with
    | leftBracket =>
      simp only [List.map_cons, Located.relocate, program]
      rw [expect_map]
      refine moved_bind f fun ls => ?_
      cases ls <;> rfl
    | _ => exact hgates

end Readers

/-! ## Spaced sources -/

/-- Where a byte is after `k` bytes are inserted at the byte `p`. -/
def shiftPosition (p k i : Nat) : Nat := if p ≤ i then i + k else i

@[simp]
theorem Lexeme.token_shiftFrom (p k : Nat) (l : Lexeme) : (l.shiftFrom p k).token = l.token := by
  unfold shiftFrom
  split <;> rfl

@[simp]
theorem Lexeme.start_shiftFrom (p k : Nat) (l : Lexeme) : (l.shiftFrom p k).start = shiftPosition p k l.start := by
  unfold shiftFrom shiftPosition
  split <;> rfl

theorem located_map (p k : Nat) (ls : List Lexeme) :
    located (ls.map (Lexeme.shiftFrom p k)) =
      moved (shiftPosition p k) (List.map (Located.relocate (shiftPosition p k))) (located ls) := by
  induction ls with
  | nil => rfl
  | cons l ls ih =>
    simp only [List.map_cons, located, Lexeme.token_shiftFrom, Lexeme.start_shiftFrom]
    split
    · rfl
    · rw [ih]
      exact moved_bind _ fun ls => rfl

/-- The places where blanks may be inserted: the start, the end, and between neighbouring lexemes. -/
inductive Place (source : String) : Nat → Prop where
  | start : Place source 0
  | stop : Place source source.utf8ByteSize
  | between {front back : List Lexeme} {l l' : Lexeme} {p : Nat} :
      lexemes source.toList = front ++ l :: l' :: back → l.stop ≤ p → p ≤ l'.start → Place source p

/-- The sources that are made of `source` by inserting blanks, one place after the other. -/
inductive Respaced (source : String) : String → Prop where
  | refl : Respaced source source
  | insert {before blanks after : String} : Respaced source (before ++ after) →
      Place (before ++ after) before.utf8ByteSize → (∀ c ∈ blanks.toList, isBlank c = true) →
      Respaced source (before ++ blanks ++ after)

/-- A place is outside of all lexemes. -/
theorem Place.outside {source : String} {p : Nat} (h : Place source p) {l : Lexeme} (hl : l ∈ lexemes source.toList) :
    p ≤ l.start ∨ l.stop ≤ p := by
  have hrun := cuts_lexemes source.toList
  cases h with
  | start => exact .inl (Nat.zero_le _)
  | stop =>
    have hstop := hrun.stop_le hl
    rw [Nat.zero_add, ← utf8ByteSize_eq_byteSize] at hstop
    exact .inr hstop
  | @between front back a b _ heq ha hb =>
    have hapart := hrun.pairwise
    have ha' : a.start < a.stop := hrun.start_lt_stop (heq ▸ by simp)
    have hb' : b.start < b.stop := hrun.start_lt_stop (heq ▸ by simp)
    rw [heq, List.pairwise_append] at hapart
    obtain ⟨-, hback, hfront⟩ := hapart
    simp only [heq, List.mem_append, List.mem_cons] at hl
    rcases hl with hl | rfl | rfl | hl
    · have := hfront l hl a List.mem_cons_self
      omega
    · exact .inr ha
    · exact .inl hb
    · have := (List.pairwise_cons.1 (List.pairwise_cons.1 hback).2).1 l hl
      omega

theorem lexemes_insert {before blanks after : String} (hplace : Place (before ++ after) before.utf8ByteSize)
    (hblanks : ∀ c ∈ blanks.toList, isBlank c = true) :
    lexemes (before ++ blanks ++ after).toList =
      (lexemes (before ++ after).toList).map (Lexeme.shiftFrom before.utf8ByteSize blanks.utf8ByteSize) := by
  have hcut := (cuts_lexemes (before ++ after).toList).insert String.toList_append hblanks (by
    rw [Nat.zero_add, ← utf8ByteSize_eq_byteSize]
    exact fun l hl => hplace.outside hl)
  rw [Nat.zero_add, ← utf8ByteSize_eq_byteSize, ← utf8ByteSize_eq_byteSize, ← String.toList_append,
    ← String.toList_append, ← String.append_assoc] at hcut
  exact hcut.eq_lexemes.symm

theorem parse_insert {before blanks after : String} (hplace : Place (before ++ after) before.utf8ByteSize)
    (hblanks : ∀ c ∈ blanks.toList, isBlank c = true) :
    parse (before ++ blanks ++ after) =
      moved (shiftPosition before.utf8ByteSize blanks.utf8ByteSize) id (parse (before ++ after)) := by
  unfold parse parseChars
  rw [lexemes_insert hplace hblanks, located_map]
  exact moved_bind _ (program_map _)

theorem ParseError.relocate_relocate (f g : Nat → Nat) (e : ParseError) :
    (e.relocate f).relocate g = e.relocate (g ∘ f) := by
  cases e <;> rfl

/-- **Spacing does not matter.** However often blanks are inserted at the start of a source, at its end or between
neighbouring lexemes, the tokens stay the same; so the parser returns the same gates, or the same error, whose position moves
with the token it is about. -/
theorem parse_respaced {source source' : String} (h : Respaced source source') :
    (lexemes source'.toList).map Lexeme.token = (lexemes source.toList).map Lexeme.token ∧
      ∃ move : Nat → Nat,
        (lexemes source'.toList).map Lexeme.start = (lexemes source.toList).map (fun l => move l.start) ∧
          parse source' = (parse source).mapError (ParseError.relocate move) := by
  induction h with
  | refl =>
    refine ⟨rfl, id, rfl, ?_⟩
    cases parse source with
    | ok gs => rfl
    | error e => cases e <;> rfl
  | @insert before blanks after _ hplace hblanks ih =>
    obtain ⟨htokens, move, hstarts, hparse⟩ := ih
    let shift := shiftPosition before.utf8ByteSize blanks.utf8ByteSize
    have hlexemes := lexemes_insert hplace hblanks
    refine ⟨?_, shift ∘ move, ?_, ?_⟩
    · rw [hlexemes, List.map_map, ← htokens]
      exact List.map_congr_left fun l _ => l.token_shiftFrom _ _
    · calc (lexemes (before ++ blanks ++ after).toList).map Lexeme.start
        _ = (lexemes (before ++ after).toList).map (shift ∘ Lexeme.start) := by
          rw [hlexemes, List.map_map]
          exact List.map_congr_left fun l _ => l.start_shiftFrom _ _
        _ = ((lexemes source.toList).map (fun l => move l.start)).map shift := by rw [← hstarts, List.map_map]
        _ = (lexemes source.toList).map (fun l => (shift ∘ move) l.start) := List.map_map
    · rw [parse_insert hplace hblanks, hparse]
      cases parse source with
      | ok gs => rfl
      | error e => exact congrArg Except.error (e.relocate_relocate move shift)

/-- The `e` behind `1` starts no exponent, and the parser rejects it wherever it stands. -/
theorem parse_respaced_exponent :
    Respaced "X(0,1e)" " X(0,1\te)\n" ∧
      (lexemes " X(0,1\te)\n".toList).map Lexeme.token = (lexemes "X(0,1e)".toList).map Lexeme.token ∧
        ∃ move : Nat → Nat,
          (lexemes " X(0,1\te)\n".toList).map Lexeme.start = (lexemes "X(0,1e)".toList).map (fun l => move l.start) ∧
            parse " X(0,1\te)\n" = (parse "X(0,1e)").mapError (ParseError.relocate move) := by
  have hstart : Respaced "X(0,1e)" ("" ++ " " ++ "X(0,1e)") := .insert .refl .start (by simp [isBlank])
  have hstop : Respaced "X(0,1e)" (" X(0,1e)" ++ "\n" ++ "") := .insert hstart .stop (by simp [isBlank])
  have hlexemes : lexemes (" X(0,1" ++ "e)\n").toList =
      [⟨.ok (.axis .x), 1, 2⟩, ⟨.ok .leftParen, 2, 3⟩, ⟨.ok (.integer ['0']), 3, 4⟩, ⟨.ok .comma, 4, 5⟩] ++
        ⟨.ok (.integer ['1']), 5, 6⟩ :: ⟨.ok (.identifier ['e']), 6, 7⟩ :: [⟨.ok .rightParen, 7, 8⟩] := rfl
  have hbetween : Respaced "X(0,1e)" (" X(0,1" ++ "\t" ++ "e)\n") :=
    .insert hstop (.between hlexemes (by decide) (by decide)) (by simp [isBlank])
  exact ⟨hbetween, parse_respaced hbetween⟩

end RotationCircuits.Text
