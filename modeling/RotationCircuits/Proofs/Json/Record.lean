import RotationCircuits.Json.Value
import RotationCircuits.Proofs.Json.RoundTrip

/-!
# Encoded values

`Value.Encodes` puts the two halves of a round trip together: a value is read back from its text, and decoded to what it
stands for. Numbers, lists and the fields of records have this property as soon as their parts have it, whichever fields of a
record are left out.
-/

namespace RotationCircuits.Json

/-- The value is read back from its text, and the decoder makes `b` of it. -/
structure Value.Encodes {β : Type} (v : Value) (decode : Value → Option β) (b : β) : Prop where
  readsBack : v.ReadsBack
  decoded : decode v = some b

namespace Value.Encodes

variable {β : Type} {decode : Value → Option β}

/-- What is encoded comes back from the text. -/
theorem bind_read? {v : Value} {b : β} (h : v.Encodes decode b) : (read? v.write).bind decode = some b := by
  rw [read?_write h.readsBack, Option.bind_some, h.decoded]

theorem ofNat {bound n : Nat} (hn : n < bound) : (Value.ofNat n).Encodes (nat? bound) n := by
  refine ⟨readsBack_number trivial, ?_⟩
  rw [Value.ofNat, nat?, if_pos hn]

theorem ofString (s : String) : (Value.ofString s).Encodes text? s := ⟨readsBack_ofString s, rfl⟩

/-- A decoder followed by a function. -/
theorem map {γ : Type} {v : Value} {b : β} (h : v.Encodes decode b) (f : β → γ) :
    v.Encodes (fun u => (decode u).map f) (f b) := by
  refine ⟨h.readsBack, ?_⟩
  rw [h.decoded, Option.map_some]

theorem mapM_decode {encode : β → Value} {bs : List β} (h : ∀ b ∈ bs, (encode b).Encodes decode b) :
    (bs.map encode).mapM decode = some bs := by
  induction bs with
  | nil => rfl
  | cons b bs ih =>
    rw [List.forall_mem_cons] at h
    rw [List.map_cons, List.mapM_cons, h.1.decoded, ih h.2]
    rfl

theorem array {encode : β → Value} {bs : List β} (h : ∀ b ∈ bs, (encode b).Encodes decode b) :
    (Value.array (bs.map encode)).Encodes (fun v => v.items?.bind (·.mapM decode)) bs := by
  refine ⟨readsBack_array ?_, mapM_decode h⟩
  rintro v hv
  obtain ⟨b, hb, rfl⟩ := List.mem_map.1 hv
  exact (h b hb).readsBack

end Value.Encodes

/-! ## Records -/

namespace Record

variable {key : String} {keys : List String} {values : List (Option Value)}

theorem filter_eq_nil_of_forall_ne {members : List (Option String × Value)} (h : ∀ m ∈ members, m.1 ≠ some key) :
    members.filter (fun m => m.1 = some key) = [] := by
  simpa [List.filter_eq_nil_iff] using h

theorem member?_of_forall_ne {members : List (Option String × Value)} (h : ∀ m ∈ members, m.1 ≠ some key) :
    member? members key = some none := by
  rw [member?, filter_eq_nil_of_forall_ne h]

theorem member?_cons_of_ne {m : Option String × Value} (members : List (Option String × Value)) (h : m.1 ≠ some key) :
    member? (m :: members) key = member? members key := by
  simp [member?, h]

theorem member?_cons_self {members : List (Option String × Value)} (v : Value) (h : ∀ m ∈ members, m.1 ≠ some key) :
    member? ((some key, v) :: members) key = some (some v) := by
  simp [member?, filter_eq_nil_of_forall_ne h]

/-- The members for the fields that have a value. -/
def given : List String → List (Option Value) → List (Option String × Value)
  | key :: keys, some v :: values => (some key, v) :: given keys values
  | _ :: keys, none :: values => given keys values
  | _, _ => []

/-- A member that is given belongs to a field. -/
theorem exists_of_mem_given {m : Option String × Value} (h : m ∈ given keys values) :
    ∃ key ∈ keys, ∃ v, some v ∈ values ∧ m = (some key, v) := by
  fun_induction given keys values with
  | case1 key keys v values ih =>
    rcases List.mem_cons.1 h with rfl | h
    · exact ⟨key, by simp, v, by simp, rfl⟩
    · obtain ⟨key', hkey, v', hv, rfl⟩ := ih h
      exact ⟨key', by simp [hkey], v', by simp [hv], rfl⟩
  | case2 key keys values ih =>
    obtain ⟨key', hkey, v', hv, rfl⟩ := ih h
    exact ⟨key', by simp [hkey], v', by simp [hv], rfl⟩
  | case3 => cases h

theorem ne_of_mem_given (hkey : key ∉ keys) : ∀ m ∈ given keys values, m.1 ≠ some key := by
  intro m hm heq
  obtain ⟨key', hkey', v, -, rfl⟩ := exists_of_mem_given hm
  obtain rfl : key' = key := by simpa using heq
  exact hkey hkey'

/-- Every field finds its value, also among members that only other keys are looked up in. -/
theorem mapM_member? (hkeys : keys.Nodup) (hlength : values.length = keys.length) {members : List (Option String × Value)}
    (h : ∀ key ∈ keys, member? members key = member? (given keys values) key) :
    keys.mapM (member? members) = some values := by
  induction keys generalizing values with
  | nil =>
    obtain rfl : values = [] := List.eq_nil_of_length_eq_zero hlength
    rfl
  | cons key keys ih =>
    obtain ⟨value, values, rfl⟩ := List.exists_cons_of_length_eq_add_one hlength
    rw [List.nodup_cons] at hkeys
    rw [List.forall_mem_cons] at h
    have hrest := ih hkeys.2 (Nat.succ.inj hlength)
    have hother : ∀ m ∈ given keys values, m.1 ≠ some key := ne_of_mem_given hkeys.1
    cases value with
    | none =>
      rw [given, member?_of_forall_ne hother] at h
      rw [List.mapM_cons, h.1, hrest h.2]
      rfl
    | some v =>
      rw [given, member?_cons_self v hother] at h
      have hkept : ∀ key' ∈ keys, member? members key' = member? (given keys values) key' := by
        intro key' hkey'
        have hne : key ≠ key' := fun heq => hkeys.1 (heq ▸ hkey')
        rw [h.2 key' hkey', member?_cons_of_ne _ (by simpa using hne)]
      rw [List.mapM_cons, h.1, hrest hkept]
      rfl

/-- **Records are read back** from an object with the fields that are given. -/
theorem read?_given {r : Record} (hfields : r.fields.Nodup) {values : List (Option Value)}
    (hlength : values.length = r.fields.length) : r.read? (.object (given r.fields values)) = some values := by
  have hallowed : (given r.fields values).all (fun m => r.allows m.1) = true := by
    rw [List.all_eq_true]
    intro m hm
    obtain ⟨key, hkey, v, -, rfl⟩ := exists_of_mem_given hm
    simp [allows, hkey]
  rw [read?, if_pos hallowed]
  exact mapM_member? hfields hlength fun key _ => rfl

theorem readsBack_given (h : ∀ o ∈ values, ∀ v ∈ o, v.ReadsBack) : (Value.object (given keys values)).ReadsBack := by
  refine Value.readsBack_object fun m hm => ?_
  obtain ⟨key, -, v, hv, rfl⟩ := exists_of_mem_given hm
  exact ⟨key, v, rfl, h (some v) hv v rfl⟩

end Record

end RotationCircuits.Json
