import RotationCircuits.Proofs.Json.Tokens

/-!
# Reading JSON that was written

`Value.ReadsBack` says that a value is read back from its characters, whatever follows it. There is one rule for each kind of
value, and those for arrays and objects are about any values that read back themselves. The text of a value that reads back
is read as this value (`read?_write`).
-/

namespace RotationCircuits.Json

variable {fuel : Nat} {cs rest : List Char}

/-! ## Steps of the reader -/

theorem value?_number {n : Number} (h : number? cs = some (n, rest)) :
    value? (fuel + 1) cs = some (.number n, rest) := by
  obtain ⟨c, cs, rfl, hc⟩ := head_of_number? h
  -- No blank and no other value starts as a number does.
  have hother : ∀ d ∈ [' ', '\t', '\n', '\r', 'n', 't', 'f', '\"', '[', '\x7b'], d ≠ '-' ∧ Decimal.isDigit d = false := by
    simp [Decimal.isDigit]
  have hstart : ∀ d ∈ [' ', '\t', '\n', '\r', 'n', 't', 'f', '\"', '[', '\x7b'], c ≠ d := by
    rintro d hd rfl
    obtain ⟨hsign, hdigit⟩ := hother c hd
    rcases hc with hc | hc
    · exact hsign hc
    · rw [hdigit] at hc
      cases hc
  simp only [List.mem_cons, List.not_mem_nil] at hstart
  have hskip : skipBlanks (c :: cs) = c :: cs := by simp [skipBlanks, Text.isBlank, hstart]
  simp [value?, hskip, hstart, h]

theorem value?_string {s : String} (h : string? cs = some (some s, rest)) :
    value? (fuel + 1) ('\"' :: cs) = some (.ofString s, rest) := by
  have hopen : skipBlanks ('\"' :: cs) = '\"' :: cs := rfl
  simp only [value?, hopen, h]
  rfl

/-- No value starts with a closing bracket. -/
theorem value?_close (h : skipBlanks cs = ']' :: rest) : value? fuel cs = none := by
  cases fuel with
  | zero => rfl
  | succ fuel => simp [value?, h, number?, magnitude?, whole?, Decimal.isDigit]

theorem itemsOf?_close (h : skipBlanks cs = ']' :: rest) : itemsOf? fuel cs = none := by
  cases fuel with
  | zero => rfl
  | succ fuel => rw [itemsOf?, value?_close h]

theorem itemsOf?_last {v : Value} (h : value? fuel cs = some (v, ']' :: rest)) :
    itemsOf? (fuel + 1) cs = some ([v], rest) := by
  rw [itemsOf?, h]
  rfl

theorem itemsOf?_more {v : Value} {vs : List Value} {cs' : List Char} (h : value? fuel cs = some (v, ',' :: cs'))
    (hmore : itemsOf? fuel cs' = some (vs, rest)) : itemsOf? (fuel + 1) cs = some (v :: vs, rest) := by
  have hcomma : skipBlanks (',' :: cs') = ',' :: cs' := rfl
  simp only [itemsOf?, h, hcomma, hmore]
  rfl

theorem value?_array {vs : List Value} (h : itemsOf? fuel cs = some (vs, rest)) :
    value? (fuel + 1) ('[' :: cs) = some (.array vs, rest) := by
  have hopen : skipBlanks ('[' :: cs) = '[' :: cs := rfl
  simp only [value?, hopen]
  split
  · next heq =>
    rw [itemsOf?_close heq] at h
    cases h
  · rw [h]
    rfl

section Members

variable {k : String} {cs' : List Char} {v : Value} (hkey : string? cs = some (some k, ':' :: cs'))

include hkey

theorem membersOf?_last (h : value? fuel cs' = some (v, '\x7d' :: rest)) :
    membersOf? (fuel + 1) ('\"' :: cs) = some ([(some k, v)], rest) := by
  have hquote : skipBlanks ('\"' :: cs) = '\"' :: cs := rfl
  have hcolon : skipBlanks (':' :: cs') = ':' :: cs' := rfl
  simp only [membersOf?, hquote, hkey, hcolon, h]
  rfl

theorem membersOf?_more {cs'' : List Char} {members : List (Option String × Value)}
    (h : value? fuel cs' = some (v, ',' :: cs'')) (hmore : membersOf? fuel cs'' = some (members, rest)) :
    membersOf? (fuel + 1) ('\"' :: cs) = some ((some k, v) :: members, rest) := by
  have hquote : skipBlanks ('\"' :: cs) = '\"' :: cs := rfl
  have hcolon : skipBlanks (':' :: cs') = ':' :: cs' := rfl
  have hcomma : skipBlanks (',' :: cs'') = ',' :: cs'' := rfl
  simp only [membersOf?, hquote, hkey, hcolon, h, hcomma, hmore]
  rfl

end Members

theorem membersOf?_close (h : skipBlanks cs = '\x7d' :: rest) : membersOf? fuel cs = none := by
  cases fuel with
  | zero => rfl
  | succ fuel => simp [membersOf?, h]

theorem value?_object {members : List (Option String × Value)} (h : membersOf? fuel cs = some (members, rest)) :
    value? (fuel + 1) ('\x7b' :: cs) = some (.object members, rest) := by
  have hopen : skipBlanks ('\x7b' :: cs) = '\x7b' :: cs := rfl
  simp only [value?, hopen]
  split
  · next heq =>
    rw [membersOf?_close heq] at h
    cases h
  · rw [h]
    rfl

/-! ## Values in front of the rest -/

namespace Value

/-- The value is read back from its characters in front of any rest that does not continue a number. Two calls are needed
for a character at most. -/
def ReadsBack (v : Value) : Prop :=
  ∀ fuel rest, Ends rest → 2 * v.chars.length ≤ fuel → value? fuel (v.chars ++ rest) = some (v, rest)

theorem readsBack_number {n : Number} (hn : n.IsNormal) : (number n).ReadsBack := by
  intro fuel rest hrest hfuel
  have hread := number?_chars hn hrest
  obtain ⟨c, cs, hcs, -⟩ := head_of_number? (number?_chars hn ends_nil)
  rw [List.append_nil] at hcs
  rw [chars, hcs, List.length_cons] at hfuel
  obtain ⟨fuel, rfl⟩ : ∃ m, fuel = m + 1 := ⟨fuel - 1, by omega⟩
  exact value?_number hread

theorem readsBack_ofString (s : String) : (ofString s).ReadsBack := by
  intro fuel rest _ hfuel
  obtain ⟨fuel, rfl⟩ : ∃ m, fuel = m + 1 := by
    refine ⟨fuel - 1, ?_⟩
    simp only [ofString, chars, quote, List.length_cons] at hfuel
    omega
  have hchars : (ofString s).chars ++ rest = '\"' :: (s.toList.flatMap escape ++ '\"' :: rest) := by
    simp [ofString, chars, quote]
  rw [hchars]
  exact value?_string (string?_quote s rest)

theorem itemsChars_cons_cons (v v' : Value) (vs : List Value) :
    itemsChars (v :: v' :: vs) = v.chars ++ ',' :: itemsChars (v' :: vs) := by
  rw [itemsChars]
  simp

/-- Items are read back up to the closing bracket. -/
theorem itemsOf?_chars {v : Value} {vs : List Value} (h : ∀ u ∈ v :: vs, u.ReadsBack)
    (hfuel : 2 * (itemsChars (v :: vs)).length < fuel) :
    itemsOf? fuel (itemsChars (v :: vs) ++ ']' :: rest) = some (v :: vs, rest) := by
  induction vs generalizing v fuel with
  | nil =>
    obtain ⟨fuel, rfl⟩ : ∃ m, fuel = m + 1 := ⟨fuel - 1, by omega⟩
    rw [itemsChars] at hfuel ⊢
    exact itemsOf?_last (h v (by simp) fuel _ (ends_cons (by simp)) (by omega))
  | cons v' vs ih =>
    obtain ⟨fuel, rfl⟩ : ∃ m, fuel = m + 1 := ⟨fuel - 1, by omega⟩
    rw [itemsChars_cons_cons, List.length_append, List.length_cons] at hfuel
    rw [itemsChars_cons_cons, List.append_assoc]
    refine itemsOf?_more (h v (by simp) fuel _ (ends_cons (by simp)) (by omega)) ?_
    exact ih (fun u hu => h u (List.mem_cons_of_mem v hu)) (by omega)

theorem readsBack_array {vs : List Value} (h : ∀ v ∈ vs, v.ReadsBack) : (array vs).ReadsBack := by
  intro fuel rest _ hfuel
  simp only [chars, List.length_cons, List.length_append] at hfuel
  obtain ⟨fuel, rfl⟩ : ∃ m, fuel = m + 1 := ⟨fuel - 1, by omega⟩
  rw [chars, List.cons_append, List.append_assoc]
  cases vs with
  | nil => rfl
  | cons v vs => exact value?_array (itemsOf?_chars h (by omega))

/-- A key with its quotes and the colon, in front of a rest. -/
theorem quote_append (k : String) (rest : List Char) :
    quote (some k) ++ ':' :: rest = '\"' :: (k.toList.flatMap escape ++ '\"' :: ':' :: rest) := by
  simp [quote]

theorem membersChars_cons_cons (k : Option String) (v : Value) (m : Option String × Value)
    (ms : List (Option String × Value)) :
    membersChars ((k, v) :: m :: ms) = quote k ++ ':' :: (v.chars ++ ',' :: membersChars (m :: ms)) := by
  rw [membersChars]
  simp

/-- Members with texts for keys are read back up to the closing brace. -/
theorem membersOf?_chars {m : Option String × Value} {ms : List (Option String × Value)}
    (h : ∀ n ∈ m :: ms, ∃ k v, n = (some k, v) ∧ v.ReadsBack) (hfuel : 2 * (membersChars (m :: ms)).length < fuel) :
    membersOf? fuel (membersChars (m :: ms) ++ '\x7d' :: rest) = some (m :: ms, rest) := by
  induction ms generalizing m fuel with
  | nil =>
    obtain ⟨fuel, rfl⟩ : ∃ n, fuel = n + 1 := ⟨fuel - 1, by omega⟩
    obtain ⟨k, v, rfl, hv⟩ := h m (by simp)
    rw [membersChars, List.length_append, List.length_cons] at hfuel
    rw [membersChars, List.append_assoc, List.cons_append, quote_append]
    exact membersOf?_last (string?_quote k _) (hv fuel _ (ends_cons (by simp)) (by omega))
  | cons m' ms ih =>
    obtain ⟨fuel, rfl⟩ : ∃ n, fuel = n + 1 := ⟨fuel - 1, by omega⟩
    obtain ⟨k, v, rfl, hv⟩ := h m (by simp)
    rw [membersChars_cons_cons, List.length_append, List.length_cons, List.length_append, List.length_cons] at hfuel
    rw [membersChars_cons_cons, List.append_assoc, List.cons_append, quote_append, List.append_assoc]
    refine membersOf?_more (string?_quote k _) (hv fuel _ (ends_cons (by simp)) (by omega)) ?_
    exact ih (fun n hn => h n (List.mem_cons_of_mem _ hn)) (by omega)

theorem readsBack_object {members : List (Option String × Value)}
    (h : ∀ m ∈ members, ∃ k v, m = (some k, v) ∧ v.ReadsBack) : (object members).ReadsBack := by
  intro fuel rest _ hfuel
  simp only [chars, List.length_cons, List.length_append] at hfuel
  obtain ⟨fuel, rfl⟩ : ∃ n, fuel = n + 1 := ⟨fuel - 1, by omega⟩
  rw [chars, List.cons_append, List.append_assoc]
  cases members with
  | nil => rfl
  | cons m ms => exact value?_object (membersOf?_chars h (by omega))

end Value

/-- **What was written is read back.** -/
theorem read?_write {v : Value} (h : v.ReadsBack) : read? v.write = some v := by
  have hread := h (2 * v.chars.length + 2) [] ends_nil (by omega)
  rw [List.append_nil] at hread
  rw [read?, Value.write, String.toList_ofList, readChars?, hread]
  rfl

end RotationCircuits.Json
