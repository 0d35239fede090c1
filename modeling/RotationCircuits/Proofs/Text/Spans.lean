import RotationCircuits.Proofs.Text.Words

/-!
# Spans

`Cuts n cs ls` is a run of the lexer without a bound on its steps: from byte `n` on, the characters `cs` are cut into the
lexemes `ls`. The lexer makes such a run of any source (`cuts_lexemes`). Along a run each lexeme is what `scan` reads at its
place (`Cuts.exists_lexemeAt`), each lexeme ends before the next starts (`Cuts.pairwise`), and each character is blank or in
a lexeme (`Cuts.isBlank_or_covered`).
-/

namespace RotationCircuits.Text

/-! ## Sizes in bytes -/

theorem byteSize_append (front back : List Char) : byteSize (front ++ back) = byteSize front + byteSize back := by
  induction front with
  | nil => simp [byteSize]
  | cons c front ih => simp [byteSize, ih, Nat.add_assoc]

theorem byteSize_pos {cs : List Char} (h : cs ≠ []) : 0 < byteSize cs := by
  obtain ⟨c, cs, rfl⟩ := List.exists_cons_of_ne_nil h
  exact Nat.lt_of_lt_of_le c.utf8Size_pos (Nat.le_add_right _ _)

theorem byteSize_le_of_isPrefix {front cs : List Char} (h : front <+: cs) : byteSize front ≤ byteSize cs := by
  obtain ⟨back, rfl⟩ := h
  rw [byteSize_append]
  exact Nat.le_add_right _ _

/-- Of two beginnings of one text the one with fewer bytes is the beginning of the other. -/
theorem isPrefix_of_byteSize_le {front front' back back' : List Char} (h : front ++ back = front' ++ back')
    (hsize : byteSize front ≤ byteSize front') : front <+: front' := by
  obtain ⟨middle, hmiddle, -⟩ | ⟨middle, hmiddle, -⟩ := List.append_eq_append_iff.1 h
  · exact ⟨middle, hmiddle.symm⟩
  · have hnil : middle = [] := by
      apply Classical.byContradiction
      intro hne
      have hpos := byteSize_pos hne
      rw [hmiddle, byteSize_append] at hsize
      omega
    have heq : front = front' := by rw [hmiddle, hnil, List.append_nil]
    exact heq ▸ List.prefix_refl front

theorem append_inj_of_byteSize_eq {front front' back back' : List Char} (h : front ++ back = front' ++ back')
    (hsize : byteSize front = byteSize front') : front = front' ∧ back = back' := by
  have hfront : front = front' :=
    (isPrefix_of_byteSize_le h (Nat.le_of_eq hsize)).eq_of_length_le
      (isPrefix_of_byteSize_le h.symm (Nat.le_of_eq hsize.symm)).length_le
  subst hfront
  exact ⟨rfl, List.append_cancel_left h⟩

theorem utf8Size_of_isBlank {c : Char} (h : isBlank c = true) : c.utf8Size = 1 := by
  rcases isBlank_iff.1 h with rfl | rfl | rfl | rfl <;> rfl

/-! ## Runs of the lexer -/

/-- The lexeme that starts at the byte `start` with the character `c`. -/
def lexemeAt (start : Nat) (c : Char) (cs : List Char) : Lexeme where
  token := match (scan c cs).token with
    | some t => .ok t
    | none => .error c
  start := start
  stop := start + byteSize (scan c cs).covered

/-- What is written for the token of a lexeme; a character that starts no word stands for itself. -/
def IsWritten (token : Except Char Token) (text : List Char) : Prop :=
  match token with
  | .ok t => Spells text t
  | .error c => text = [c]

section LexemeAt

variable (n : Nat) (c : Char) (cs : List Char)

theorem start_lt_stop_lexemeAt : (lexemeAt n c cs).start < (lexemeAt n c cs).stop := by
  obtain ⟨covered, hcovered⟩ := exists_covered_eq_cons c cs
  have hpos : 0 < byteSize (scan c cs).covered := byteSize_pos (by simp [hcovered])
  exact Nat.lt_add_of_pos_right hpos

theorem stop_lexemeAt_le : (lexemeAt n c cs).stop ≤ n + byteSize (c :: cs) := by
  rw [← scan_append c cs, byteSize_append]
  exact Nat.add_le_add_left (Nat.le_add_right _ _) n

theorem isWritten_lexemeAt : IsWritten (lexemeAt n c cs).token (scan c cs).covered := by
  cases htoken : (scan c cs).token with
  | none => simp [lexemeAt, IsWritten, scan_eq_of_token_eq_none htoken cs]
  | some t => simpa [lexemeAt, htoken, IsWritten] using spells_scan htoken

variable {n c cs}

/-- No word that starts with a lexeme is longer, and none starts with a character that was taken by itself. -/
theorem stop_lexemeAt_of_spells {text : List Char} {t : Token} (h : Spells text t) (hfront : text <+: c :: cs) :
    n + byteSize text ≤ (lexemeAt n c cs).stop ∧ ∀ d, (lexemeAt n c cs).token ≠ .error d := by
  refine ⟨Nat.add_le_add_left (byteSize_le_of_isPrefix (h.isPrefix_covered hfront)) n, fun d hd => ?_⟩
  have hnone := h.token_scan_ne_none hfront
  cases htoken : (scan c cs).token with
  | none => exact hnone htoken
  | some u => simp [lexemeAt, htoken] at hd

end LexemeAt

/-- From byte `n` on, the characters `cs` are cut into the lexemes `ls`. -/
inductive Cuts : Nat → List Char → List Lexeme → Prop where
  | nil {n : Nat} : Cuts n [] []
  | blank {n : Nat} {c : Char} {cs : List Char} {ls : List Lexeme} : isBlank c = true →
      Cuts (n + c.utf8Size) cs ls → Cuts n (c :: cs) ls
  | lexeme {n : Nat} {c : Char} {cs : List Char} {ls : List Lexeme} : isBlank c = false →
      Cuts (n + byteSize (scan c cs).covered) (scan c cs).rest ls → Cuts n (c :: cs) (lexemeAt n c cs :: ls)

variable {n fuel : Nat} {c : Char} {cs front back : List Char} {l : Lexeme} {ls ls' : List Lexeme}

theorem cuts_lexemesFrom (hfuel : cs.length ≤ fuel) : Cuts n cs (lexemesFrom fuel n cs) := by
  fun_induction lexemesFrom fuel n cs with
  | case1 n cs =>
    obtain rfl : cs = [] := by simpa using hfuel
    exact .nil
  | case2 => exact .nil
  | case3 fuel n c cs hblank ih => exact .blank hblank (ih (by simpa using hfuel))
  | case4 fuel n c cs hblank s stop token ih =>
    have hrest : s.rest.length ≤ cs.length := length_rest_scan_le c cs
    simp only [List.length_cons] at hfuel
    exact .lexeme (by simpa using hblank) (ih (by omega))

theorem Cuts.unique (h : Cuts n cs ls) (h' : Cuts n cs ls') : ls = ls' := by
  induction h generalizing ls' with
  | nil =>
    cases h'
    rfl
  | blank hblank _ ih =>
    cases h' with
    | blank _ h' => exact ih h'
    | lexeme hlexeme _ => simp [hblank] at hlexeme
  | lexeme hlexeme _ ih =>
    cases h' with
    | blank hblank _ => simp [hlexeme] at hblank
    | lexeme _ h' => rw [ih h']

theorem cuts_lexemes (cs : List Char) : Cuts 0 cs (lexemes cs) := cuts_lexemesFrom (Nat.le_refl _)

theorem Cuts.eq_lexemes (h : Cuts 0 cs ls) : ls = lexemes cs := h.unique (cuts_lexemes cs)

/-! ## Where the lexemes are -/

/-- Each lexeme is what the lexer reads where the lexeme stands. -/
theorem Cuts.exists_lexemeAt (h : Cuts n cs ls) (hl : l ∈ ls) :
    ∃ front d ds, cs = front ++ d :: ds ∧ l = lexemeAt (n + byteSize front) d ds := by
  induction h with
  | nil => cases hl
  | @blank n c cs ls _ _ ih =>
    obtain ⟨front, d, ds, rfl, rfl⟩ := ih hl
    exact ⟨c :: front, d, ds, rfl, by rw [byteSize, Nat.add_assoc]⟩
  | @lexeme n c cs ls _ _ ih =>
    rcases List.mem_cons.1 hl with rfl | hl
    · exact ⟨[], c, cs, rfl, rfl⟩
    · obtain ⟨front, d, ds, hrest, rfl⟩ := ih hl
      refine ⟨(scan c cs).covered ++ front, d, ds, ?_, by rw [byteSize_append, Nat.add_assoc]⟩
      rw [← scan_append c cs, hrest, List.append_assoc]

/-- The characters from the start of a lexeme to its end are those that are written for its token. -/
theorem Cuts.exists_text (h : Cuts n cs ls) (hl : l ∈ ls) :
    ∃ front text back, cs = front ++ (text ++ back) ∧ l.start = n + byteSize front ∧
      l.stop = n + byteSize front + byteSize text ∧ IsWritten l.token text := by
  obtain ⟨front, d, ds, rfl, rfl⟩ := h.exists_lexemeAt hl
  exact ⟨front, _, _, by rw [scan_append], rfl, rfl, isWritten_lexemeAt _ d ds⟩

theorem Cuts.le_start (h : Cuts n cs ls) (hl : l ∈ ls) : n ≤ l.start := by
  obtain ⟨front, d, ds, -, rfl⟩ := h.exists_lexemeAt hl
  exact Nat.le_add_right _ _

theorem Cuts.start_lt_stop (h : Cuts n cs ls) (hl : l ∈ ls) : l.start < l.stop := by
  obtain ⟨front, d, ds, -, rfl⟩ := h.exists_lexemeAt hl
  exact start_lt_stop_lexemeAt _ d ds

theorem Cuts.stop_le (h : Cuts n cs ls) (hl : l ∈ ls) : l.stop ≤ n + byteSize cs := by
  obtain ⟨front, d, ds, rfl, rfl⟩ := h.exists_lexemeAt hl
  rw [byteSize_append, ← Nat.add_assoc]
  exact stop_lexemeAt_le _ d ds

/-- A lexeme ends before the next one starts. -/
theorem Cuts.pairwise (h : Cuts n cs ls) : ls.Pairwise fun a b => a.stop ≤ b.start := by
  induction h with
  | nil => exact .nil
  | blank _ _ ih => exact ih
  | lexeme _ hrest ih => exact .cons (fun l hl => hrest.le_start hl) ih

theorem Cuts.isBlank_or_covered (h : Cuts n cs ls) (hcs : cs = front ++ c :: back) :
    isBlank c = true ∨ ∃ l ∈ ls, l.start ≤ n + byteSize front ∧ n + byteSize front + c.utf8Size ≤ l.stop := by
  induction h generalizing front with
  | nil => simp at hcs
  | @blank n d ds ls hblank _ ih =>
    cases front with
    | nil =>
      cases hcs
      exact .inl hblank
    | cons d' front =>
      cases hcs
      rw [byteSize, ← Nat.add_assoc]
      exact ih rfl
  | @lexeme n d ds ls _ _ ih =>
    rw [← scan_append d ds] at hcs
    have hbehind (middle : List Char) (hfront : front = (scan d ds).covered ++ middle)
        (hrest : (scan d ds).rest = middle ++ c :: back) :
        isBlank c = true ∨ ∃ l ∈ lexemeAt n d ds :: ls,
          l.start ≤ n + byteSize front ∧ n + byteSize front + c.utf8Size ≤ l.stop := by
      rw [hfront, byteSize_append, ← Nat.add_assoc]
      rcases ih hrest with hblank | ⟨l, hl, hspan⟩
      · exact .inl hblank
      · exact .inr ⟨l, List.mem_cons_of_mem _ hl, hspan⟩
    -- The character is behind what the step covers, or it is in it.
    obtain ⟨middle, hfront, hrest⟩ | ⟨middle, hcovered, hrest⟩ := List.append_eq_append_iff.1 hcs
    · exact hbehind middle hfront hrest
    · cases middle with
      | nil => exact hbehind [] (by simpa using hcovered.symm) hrest.symm
      | cons d' middle =>
        cases hrest
        refine .inr ⟨_, List.mem_cons_self, Nat.le_add_right _ _, ?_⟩
        simp only [lexemeAt, hcovered, byteSize_append, byteSize]
        omega

/-! ## Bytes of a source -/

variable {source : String} {text : List Char}

theorem utf8ByteSize_ofList (cs : List Char) : (String.ofList cs).utf8ByteSize = byteSize cs := by
  induction cs with
  | nil => rfl
  | cons c cs ih =>
    have hcons : String.ofList (c :: cs) = String.singleton c ++ String.ofList cs := by
      rw [String.singleton_eq_ofList, ← String.ofList_append, List.singleton_append]
    rw [hcons, String.utf8ByteSize_append, String.utf8ByteSize_singleton, ih, byteSize]

theorem utf8ByteSize_eq_byteSize (source : String) : source.utf8ByteSize = byteSize source.toList := by
  rw [← utf8ByteSize_ofList, String.ofList_toList]

theorem isValid_of_toList_eq (h : source.toList = front ++ back) : String.Pos.Raw.IsValid source ⟨byteSize front⟩ := by
  refine String.Pos.Raw.isValid_iff_exists_append.2 ⟨.ofList front, .ofList back, ?_, ?_⟩
  · rw [← String.ofList_append, ← h, String.ofList_toList]
  · rw [String.rawEndPos, utf8ByteSize_ofList]

theorem extract_of_toList_eq (h : source.toList = front ++ (text ++ back))
    (hstart : String.Pos.Raw.IsValid source ⟨byteSize front⟩)
    (hstop : String.Pos.Raw.IsValid source ⟨byteSize front + byteSize text⟩) :
    String.extract ⟨⟨byteSize front⟩, hstart⟩ ⟨⟨byteSize front + byteSize text⟩, hstop⟩ = .ofList text := by
  have hbytes : source.toByteArray =
      (String.ofList front).toByteArray ++ ((String.ofList text).toByteArray ++ (String.ofList back).toByteArray) := by
    rw [← String.toByteArray_append, ← String.toByteArray_append, ← String.ofList_append, ← String.ofList_append, ← h,
      String.ofList_toList]
  have hsize (cs : List Char) : (String.ofList cs).toByteArray.size = byteSize cs := utf8ByteSize_ofList cs
  rw [← String.toByteArray_inj, String.toByteArray_extract, hbytes]
  have hskip := ByteArray.extract_append_size_add' (a := (String.ofList front).toByteArray)
    (b := (String.ofList text).toByteArray ++ (String.ofList back).toByteArray) (i := 0) (j := byteSize text)
    (hsize front).symm
  exact hskip.trans (ByteArray.extract_append_eq_left (hsize text).symm)

theorem exists_char_at {i : Nat} (h : i < byteSize cs) :
    ∃ front d back, cs = front ++ d :: back ∧ byteSize front ≤ i ∧ i < byteSize front + d.utf8Size := by
  induction cs generalizing i with
  | nil => simp [byteSize] at h
  | cons c cs ih =>
    rw [byteSize] at h
    by_cases hi : i < c.utf8Size
    · exact ⟨[], c, cs, rfl, Nat.zero_le _, by simpa [byteSize] using hi⟩
    · obtain ⟨front, d, back, rfl, hle, hlt⟩ := @ih (i - c.utf8Size) (by omega)
      exact ⟨c :: front, d, back, rfl, by simp only [byteSize]; omega, by simp only [byteSize]; omega⟩

/-- The bytes of the four blanks. -/
def blankBytes : List UInt8 := [0x20, 0x09, 0x0d, 0x0a]

theorem getUTF8Byte_of_isBlank (h : source.toList = front ++ c :: back) (hc : isBlank c = true)
    (hi : (⟨byteSize front⟩ : String.Pos.Raw) < source.rawEndPos) :
    source.getUTF8Byte ⟨byteSize front⟩ hi ∈ blankBytes := by
  have hsize : (String.ofList front).toByteArray.size = byteSize front := utf8ByteSize_ofList front
  obtain ⟨b, hb, hencode⟩ : ∃ b ∈ blankBytes, String.utf8EncodeChar c = [b] := by
    rcases isBlank_iff.1 hc with rfl | rfl | rfl | rfl
    · exact ⟨0x20, by decide, by decide⟩
    · exact ⟨0x09, by decide, by decide⟩
    · exact ⟨0x0d, by decide, by decide⟩
    · exact ⟨0x0a, by decide, by decide⟩
  have hbytes : source.toByteArray = (String.ofList front).toByteArray ++ ([b].toByteArray ++ back.utf8Encode) := by
    rw [← hencode, ← List.utf8Encode_singleton, ← List.utf8Encode_cons, ← String.toByteArray_ofList,
      ← String.toByteArray_append, ← String.ofList_append, ← h, String.ofList_toList]
  have hbyte : source.getUTF8Byte ⟨byteSize front⟩ hi = b := by
    simp only [String.getUTF8Byte, hbytes]
    rw [ByteArray.getElem_append_right (by omega)]
    have hzero : byteSize front - (String.ofList front).toByteArray.size = 0 := by omega
    simp only [hzero]
    rw [ByteArray.getElem_append_left (by simp), List.getElem_toByteArray]
    rfl
  rwa [hbyte]

/-! ## Every byte is accounted for -/

/-- The lexemes account for every byte of a source. -/
structure AccountsFor (ls : List Lexeme) (source : String) : Prop where
  nonempty : ∀ l ∈ ls, l.start < l.stop
  bounded : ∀ l ∈ ls, l.stop ≤ source.utf8ByteSize
  /-- Spans begin and end between characters, so the source can be cut there; the piece is what was read. -/
  sliced : ∀ l ∈ ls, ∃ (hstart : String.Pos.Raw.IsValid source ⟨l.start⟩) (hstop : String.Pos.Raw.IsValid source ⟨l.stop⟩)
    (text : List Char), String.extract ⟨⟨l.start⟩, hstart⟩ ⟨⟨l.stop⟩, hstop⟩ = .ofList text ∧ IsWritten l.token text
  /-- No longer word starts where a lexeme does, and none at all where no token was read. -/
  longest : ∀ l ∈ ls, ∀ front text back t, source.toList = front ++ (text ++ back) → byteSize front = l.start →
    Spells text t → l.start + byteSize text ≤ l.stop ∧ ∀ c, l.token ≠ .error c
  increasing : ls.Pairwise fun a b => a.start < b.start
  disjoint : ls.Pairwise fun a b => a.stop ≤ b.start
  /-- Nothing but blanks is skipped. -/
  skipped : ∀ i (hi : (⟨i⟩ : String.Pos.Raw) < source.rawEndPos), (∀ l ∈ ls, i < l.start ∨ l.stop ≤ i) →
    source.getUTF8Byte ⟨i⟩ hi ∈ blankBytes

/-- **The lexer accounts for every byte.** Its bound on the steps is never what ends it, and its lexemes lie in a source one
after the other, with nothing but blanks between them. -/
theorem every_byte_accounted_for (source : String) :
    (∀ fuel, source.length ≤ fuel → lexemesFrom fuel 0 source.toList = lexemes source.toList) ∧
      AccountsFor (lexemes source.toList) source := by
  have hrun := cuts_lexemes source.toList
  refine ⟨fun fuel hfuel => (cuts_lexemesFrom (by rwa [String.length_toList])).unique hrun, ?_⟩
  constructor
  case nonempty => exact fun l hl => hrun.start_lt_stop hl
  case bounded => simpa [utf8ByteSize_eq_byteSize] using fun l => hrun.stop_le (l := l)
  case disjoint => exact hrun.pairwise
  case increasing => exact hrun.pairwise.imp_of_mem fun ha _ hab => Nat.lt_of_lt_of_le (hrun.start_lt_stop ha) hab
  case sliced =>
    rintro ⟨token, start, stop⟩ hl
    obtain ⟨front, text, back, hsource, rfl, rfl, hwritten⟩ := hrun.exists_text hl
    have hstart := isValid_of_toList_eq hsource
    have hstop := isValid_of_toList_eq (hsource.trans (List.append_assoc ..).symm)
    rw [byteSize_append] at hstop
    simp only [Nat.zero_add]
    exact ⟨hstart, hstop, text, extract_of_toList_eq hsource hstart hstop, hwritten⟩
  case longest =>
    intro l hl front text back t htext hstart hspells
    obtain ⟨front', d, ds, hsource, rfl⟩ := hrun.exists_lexemeAt hl
    rw [Nat.zero_add] at hstart ⊢
    obtain ⟨rfl, hrest⟩ := append_inj_of_byteSize_eq (htext.symm.trans hsource) hstart
    exact stop_lexemeAt_of_spells hspells ⟨back, hrest⟩
  case skipped =>
    intro i hi houtside
    have hlt : i < byteSize source.toList := by rwa [← utf8ByteSize_eq_byteSize]
    obtain ⟨front, d, back, hsource, hle, hlt⟩ := exists_char_at hlt
    rcases hrun.isBlank_or_covered hsource with hblank | ⟨l, hl, hstart, hstop⟩
    · have hsize : d.utf8Size = 1 := utf8Size_of_isBlank hblank
      obtain rfl : i = byteSize front := by omega
      exact getUTF8Byte_of_isBlank hsource hblank hi
    · have := houtside l hl
      omega

/-- An `e` that starts no exponent, and a character of two bytes that starts no token. -/
example : (lexemes "1e+é 2.".toList).map (fun l => (l.start, l.stop)) = [(0, 1), (1, 2), (2, 3), (3, 5), (6, 8)] := by
  decide

end RotationCircuits.Text
