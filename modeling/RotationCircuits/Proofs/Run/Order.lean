import Mathlib.Data.List.Dedup
import Mathlib.Logic.Relation
import RotationCircuits.Binary64
import RotationCircuits.Proofs.Native
import RotationCircuits.Proofs.Run.Loop

/-!
# Orders that do not matter

The loop over runs looks at the waiting gates one qubit at a time, so all it depends on is what is done and, for every
qubit, which gates wait (`Progress.view`). Two orders are therefore without effect: the one in which the qubits with waiting
gates are listed before the last runs are ended (`optimizeGatesIn_eq`), and the one of neighbouring gates on different
qubits (`optimizeCircuit_eq_of_reordered`).
-/

namespace RotationCircuits

open Hardware (Profile)

theorem Qubit.eq_of_index_le {q r : Qubit} (h₁ : q.index ≤ r.index) (h₂ : r.index ≤ q.index) : q = r := by
  cases q
  cases r
  simpa using UInt32.le_antisymm h₁ h₂

namespace Run

variable {α : Type}

/-! ## Sorted qubits -/

/-- In the order of indices, repetitions allowed. -/
def Ascending : List Qubit → Prop := List.Pairwise fun q r => q.index ≤ r.index

theorem ascending_insertQubit {q : Qubit} {qs : List Qubit} (h : Ascending qs) : Ascending (insertQubit q qs) := by
  induction qs with
  | nil => exact List.pairwise_singleton _ q
  | cons r qs ih =>
    obtain ⟨hr, hqs⟩ := List.pairwise_cons.1 h
    rw [insertQubit]
    split
    · rename_i hqr
      refine List.pairwise_cons.2 ⟨fun s hs => ?_, h⟩
      rcases List.mem_cons.1 hs with rfl | hs
      · exact hqr
      · exact UInt32.le_trans hqr (hr s hs)
    · rename_i hqr
      refine List.pairwise_cons.2 ⟨fun s hs => ?_, ih hqs⟩
      rcases mem_insertQubit.1 hs with rfl | hs
      · exact UInt32.le_of_lt (UInt32.not_le.1 hqr)
      · exact hr s hs

theorem ascending_sortQubits (qs : List Qubit) : Ascending (sortQubits qs) := by
  induction qs with
  | nil => exact List.Pairwise.nil
  | cons q qs ih => exact ascending_insertQubit ih

/-- Without repetitions, sorted qubits are determined by which qubits they are. -/
theorem dedup_sortQubits_eq {ks ls : List Qubit} (h : ∀ q, q ∈ ks ↔ q ∈ ls) :
    (sortQubits ks).dedup = (sortQubits ls).dedup := by
  have hperm : (sortQubits ks).dedup.Perm (sortQubits ls).dedup := by
    rw [List.perm_ext_iff_of_nodup (List.nodup_dedup _) (List.nodup_dedup _)]
    intro q
    rw [List.mem_dedup, List.mem_dedup, mem_sortQubits, mem_sortQubits, h]
  refine hperm.eq_of_pairwise (fun q r _ _ => Qubit.eq_of_index_le) ?_ ?_
  · exact (ascending_sortQubits ks).sublist (List.dedup_sublist _)
  · exact (ascending_sortQubits ls).sublist (List.dedup_sublist _)

/-! ## What the loop depends on -/

/-- What is done, and which gates of each qubit wait. -/
def Progress.view (s : Progress α) : List (Gate α) × (Qubit → List (Gate α)) :=
  (s.done, fun q => s.waiting.filter (isOn q))

theorem Progress.view_eq_iff {s t : Progress α} :
    s.view = t.view ↔ s.done = t.done ∧ ∀ q, s.waiting.filter (isOn q) = t.waiting.filter (isOn q) := by
  rw [view, view, Prod.mk.injEq, funext_iff]

/-- A qubit is listed for the last runs exactly if a gate of it waits. -/
theorem mem_filterMap_qubit?_iff {q : Qubit} {gs : List (Gate α)} :
    q ∈ gs.filterMap Gate.qubit? ↔ gs.filter (isOn q) ≠ [] := by
  simp [List.mem_filterMap, isOn_iff]

/-- One list is the other with two neighbouring gates exchanged, which are on different qubits. -/
inductive Exchange : List (Gate α) → List (Gate α) → Prop where
  | intro (before after : List (Gate α)) {g h : Gate α} {q r : Qubit} (hg : g.qubit? = some q) (hh : h.qubit? = some r)
      (hne : q ≠ r) : Exchange (before ++ g :: h :: after) (before ++ h :: g :: after)

theorem view_append_exchange {g h : Gate α} {q r : Qubit} (hg : g.qubit? = some q) (hh : h.qubit? = some r) (hne : q ≠ r)
    (s : Progress α) :
    Progress.view ⟨s.done, s.waiting ++ [g] ++ [h]⟩ = Progress.view ⟨s.done, s.waiting ++ [h] ++ [g]⟩ := by
  refine Progress.view_eq_iff.2 ⟨rfl, fun u => ?_⟩
  -- No qubit sees both gates, and a qubit that sees one of them does not see where the other stands.
  have hone : isOn u g = false ∨ isOn u h = false := by
    by_cases hu : u = q
    · exact .inr (by simp [isOn, hh, hu, hne.symm])
    · exact .inl (by simp [isOn, hg, Ne.symm hu])
  rcases hone with hu | hu <;> simp [List.filter_cons, hu]

/-- Chains of steps agree if their first steps do, as far as the rest of the chain can see. -/
theorem bind_eq_of_map_eq {ε β γ δ : Type} {x y : Except ε β} {v : β → γ} {f g : β → Except ε δ} (h : x.map v = y.map v)
    (hfg : ∀ a b, v a = v b → f a = g b) : x >>= f = y >>= g := by
  cases x with
  | error e =>
    cases y with
    | error e' => simpa [Except.map, bind, Except.bind] using h
    | ok b => simp [Except.map] at h
  | ok a =>
    cases y with
    | error e' => simp [Except.map] at h
    | ok b => exact hfg a b (by simpa [Except.map] using h)

theorem map_bind_eq_of_map_eq {ε β γ δ ζ : Type} {x y : Except ε β} {v : β → γ} {f g : β → Except ε δ} {w : δ → ζ}
    (h : x.map v = y.map v) (hfg : ∀ a b, v a = v b → (f a).map w = (g b).map w) :
    (x >>= f).map w = (y >>= g).map w := by
  have hmap : ∀ (z : Except ε β) (k : β → Except ε δ), (z >>= k).map w = z >>= fun a => (k a).map w := by
    intro z k
    cases z <;> rfl
  rw [hmap, hmap]
  exact bind_eq_of_map_eq h hfg

/-- A loop keeps to what its steps can see. -/
theorem map_foldlM_eq {ε β σ γ : Type} {f : σ → β → Except ε σ} {v : σ → γ}
    (hf : ∀ s t b, v s = v t → (f s b).map v = (f t b).map v) (bs : List β) {s t : σ} (h : v s = v t) :
    (bs.foldlM f s).map v = (bs.foldlM f t).map v := by
  induction bs generalizing s t with
  | nil => exact congrArg Except.ok h
  | cons b bs ih =>
    rw [List.foldlM_cons, List.foldlM_cons]
    exact map_bind_eq_of_map_eq (hf s t b h) fun _ _ => ih

variable [Scalar α] {p : Profile}

theorem map_view_flush {s t : Progress α} (q : Qubit) (h : s.view = t.view) :
    (flush p s q).map Progress.view = (flush p t q).map Progress.view := by
  obtain ⟨hdone, hwaiting⟩ := Progress.view_eq_iff.1 h
  rw [flush, flush, hwaiting]
  cases Sequence.optimize p (t.waiting.filter (isOn q)) with
  | error e => rfl
  | ok out =>
    refine congrArg Except.ok (Progress.view_eq_iff.2 ⟨congrArg (· ++ out) hdone, fun r => ?_⟩)
    rw [List.filter_comm, hwaiting, List.filter_comm]

/-- A gate that only waits. -/
theorem step_of_qubit? {g : Gate α} {q : Qubit} (hg : g.qubit? = some q) (s : Progress α) :
    step p s g = .ok ⟨s.done, s.waiting ++ [g]⟩ := by
  cases g with
  | cx control target => cases hg
  | rotation a r θ => rfl
  | general r e => rfl

theorem map_view_step {s t : Progress α} (g : Gate α) (h : s.view = t.view) :
    (step p s g).map Progress.view = (step p t g).map Progress.view := by
  have hwait : ∀ q, g.qubit? = some q → (step p s g).map Progress.view = (step p t g).map Progress.view := by
    intro q hg
    obtain ⟨hdone, hwaiting⟩ := Progress.view_eq_iff.1 h
    rw [step_of_qubit? hg, step_of_qubit? hg]
    refine congrArg Except.ok (Progress.view_eq_iff.2 ⟨hdone, fun r => ?_⟩)
    rw [List.filter_append, List.filter_append, hwaiting]
  cases g with
  | rotation a q θ => exact hwait q rfl
  | general q e => exact hwait q rfl
  | cx control target =>
    refine map_bind_eq_of_map_eq (map_view_flush control h) fun s₁ t₁ h₁ => ?_
    refine map_bind_eq_of_map_eq (map_view_flush target h₁) fun s₂ t₂ h₂ => ?_
    obtain ⟨hdone, hwaiting⟩ := Progress.view_eq_iff.1 h₂
    exact congrArg Except.ok (Progress.view_eq_iff.2 ⟨congrArg (· ++ [Gate.cx control target]) hdone, hwaiting⟩)

/-! ## Listing the qubits whose runs have not ended -/

/-- Where no gate of a qubit waits, ending its run changes nothing. -/
theorem flush_of_idle {s : Progress α} {q : Qubit} (h : ∀ g ∈ s.waiting, isOn q g = false) : flush p s q = .ok s := by
  refine flush_eq_ok_iff.2 ⟨[], ?_, ?_⟩
  · have hnone : s.waiting.filter (isOn q) = [] := by simpa [List.filter_eq_nil_iff] using h
    rw [hnone, Sequence.optimize_nil]
  · have hall : (s.waiting.filter fun g => !isOn q g) = s.waiting := by simpa [List.filter_eq_self] using h
    rw [hall, List.append_nil]

theorem foldlM_flush_cons_cons (q : Qubit) (qs : List Qubit) (s : Progress α) :
    (q :: q :: qs).foldlM (flush p) s = (q :: qs).foldlM (flush p) s := by
  rw [List.foldlM_cons, List.foldlM_cons]
  cases h : flush p s q with
  | error e => rfl
  | ok t =>
    have hagain : flush p t q = .ok t := flush_of_idle (isOn_eq_false_of_flush h)
    change (q :: qs).foldlM (flush p) t = qs.foldlM (flush p) t
    rw [List.foldlM_cons, hagain]
    rfl

/-- Sorted qubits that are repeated stand next to each other, so repetitions do not matter. -/
theorem foldlM_flush_dedup {qs : List Qubit} (h : Ascending qs) (s : Progress α) :
    qs.dedup.foldlM (flush p) s = qs.foldlM (flush p) s := by
  induction qs generalizing s with
  | nil => rfl
  | cons q qs ih =>
    obtain ⟨hq, hqs⟩ := List.pairwise_cons.1 h
    by_cases hmem : q ∈ qs
    · rw [List.dedup_cons_of_mem hmem, ih hqs]
      cases qs with
      | nil => cases hmem
      | cons r qs =>
        have hr : r = q := by
          rcases List.mem_cons.1 hmem with hr | hr
          · exact hr.symm
          · exact Qubit.eq_of_index_le ((List.pairwise_cons.1 hqs).1 q hr) (hq r List.mem_cons_self)
        rw [hr, foldlM_flush_cons_cons]
    · rw [List.dedup_cons_of_notMem hmem, List.foldlM_cons, List.foldlM_cons]
      exact congrArg _ (funext fun t => ih hqs t)

/-- Which qubits are listed decides what ending their runs gives, not how they are listed. -/
theorem foldlM_flush_sortQubits {ks ls : List Qubit} (h : ∀ q, q ∈ ks ↔ q ∈ ls) (s : Progress α) :
    (sortQubits ks).foldlM (flush p) s = (sortQubits ls).foldlM (flush p) s := by
  rw [← foldlM_flush_dedup (ascending_sortQubits ks), dedup_sortQubits_eq h,
    foldlM_flush_dedup (ascending_sortQubits ls)]

/-- The optimized gates, where `keys` lists the qubits whose runs are left at the end. -/
def optimizeGatesIn (keys : Progress α → List Qubit) (p : Profile) (gates : List (Gate α)) :
    Except (Error α) (List (Gate α)) := do
  let s ← gates.foldlM (step p) ⟨[], []⟩
  return (← (sortQubits (keys s)).foldlM (flush p) s).done

/-- The qubits whose runs are left may be listed in any order. -/
theorem optimizeGatesIn_eq {keys : Progress α → List Qubit}
    (hkeys : ∀ s q, q ∈ keys s ↔ ∃ g ∈ s.waiting, g.qubit? = some q) (gates : List (Gate α)) :
    optimizeGatesIn keys p gates = optimizeGates p gates := by
  rw [optimizeGatesIn, optimizeGates]
  refine congrArg _ (funext fun s => ?_)
  rw [finish, foldlM_flush_sortQubits fun q => (hkeys s q).trans List.mem_filterMap.symm]

theorem finish_eq_of_view_eq {s t : Progress α} (h : s.view = t.view) : finish p s = finish p t := by
  have hkeys : ∀ q, q ∈ s.waiting.filterMap Gate.qubit? ↔ q ∈ t.waiting.filterMap Gate.qubit? := by
    intro q
    rw [mem_filterMap_qubit?_iff, mem_filterMap_qubit?_iff, (Progress.view_eq_iff.1 h).2 q]
  rw [finish, finish, foldlM_flush_sortQubits hkeys]
  refine bind_eq_of_map_eq (map_foldlM_eq (fun _ _ => map_view_flush) _ h) fun a b hab => ?_
  exact congrArg Except.ok (Progress.view_eq_iff.1 hab).1

/-! ## Neighbouring gates on different qubits -/

theorem optimizeGates_eq_of_exchange {gs hs : List (Gate α)} (h : Exchange gs hs) :
    optimizeGates p gs = optimizeGates p hs := by
  obtain ⟨before, after, hg, hh, hne⟩ := h
  rw [optimizeGates, optimizeGates]
  refine bind_eq_of_map_eq (v := Progress.view) ?_ fun _ _ => finish_eq_of_view_eq
  rw [List.foldlM_append, List.foldlM_append]
  refine map_bind_eq_of_map_eq (v := id) rfl fun s t hst => ?_
  obtain rfl : s = t := hst
  simp only [List.foldlM_cons, step_of_qubit? hg, step_of_qubit? hh]
  exact map_foldlM_eq (fun _ _ => map_view_step) after (view_append_exchange hg hh hne s)

theorem optimizeGates_eq_of_reordered {gs hs : List (Gate α)} (h : Relation.ReflTransGen Exchange gs hs) :
    optimizeGates p gs = optimizeGates p hs := by
  induction h with
  | refl => rfl
  | tail _ hlast ih => exact ih.trans (optimizeGates_eq_of_exchange hlast)

/-- **The order of independent gates does not matter.** Circuits of one width whose gates differ by exchanges of
neighbours on different qubits are optimized to the same circuit, or fail with the same error. -/
theorem optimizeCircuit_eq_of_reordered (p : Profile) {c d : Circuit α} (hwidth : c.width = d.width)
    (h : Relation.ReflTransGen Exchange c.gates d.gates) : optimizeCircuit p c = optimizeCircuit p d := by
  rw [optimizeCircuit, optimizeCircuit, hwidth, optimizeGates_eq_of_reordered h]

/-- Rotations of two qubits in turns, before and after a CX. -/
def inTurns : Circuit Float where
  width := 2
  gates := [.rotation .z ⟨0⟩ 10.0, .rotation .z ⟨1⟩ 45.0, .rotation .z ⟨0⟩ 20.0, .rotation .z ⟨1⟩ 45.0, .cx ⟨0⟩ ⟨1⟩,
    .rotation .x ⟨1⟩ 30.0, .rotation .y ⟨0⟩ 60.0, .rotation .x ⟨1⟩ 30.0, .rotation .y ⟨0⟩ 60.0]

/-- The same rotations with a pair of neighbours exchanged on each side of the CX. -/
def outOfTurn : Circuit Float where
  width := 2
  gates := [.rotation .z ⟨0⟩ 10.0, .rotation .z ⟨0⟩ 20.0, .rotation .z ⟨1⟩ 45.0, .rotation .z ⟨1⟩ 45.0, .cx ⟨0⟩ ⟨1⟩,
    .rotation .y ⟨0⟩ 60.0, .rotation .x ⟨1⟩ 30.0, .rotation .x ⟨1⟩ 30.0, .rotation .y ⟨0⟩ 60.0]

/-- What is left of both. -/
def inTurnsOptimized : Circuit Float where
  width := 2
  gates := [.rotation .z ⟨0⟩ 30.0, .rotation .z ⟨1⟩ 90.0, .cx ⟨0⟩ ⟨1⟩, .rotation .y ⟨0⟩ 120.0, .rotation .x ⟨1⟩ 60.0]

theorem optimizeCircuit_eq_of_reordered_inTurns :
    inTurns.width = outOfTurn.width ∧ Relation.ReflTransGen Exchange inTurns.gates outOfTurn.gates ∧
      optimizeCircuit (.pair .xyz) inTurns = optimizeCircuit (.pair .xyz) outOfTurn ∧
      optimizeCircuit (.pair .xyz) inTurns = .ok inTurnsOptimized := by
  have hreordered : Relation.ReflTransGen Exchange inTurns.gates outOfTurn.gates :=
    .tail (.single (.intro [_] _ rfl rfl (by decide))) (.intro [_, _, _, _, _] [_, _] rfl rfl (by decide))
  exact ⟨rfl, hreordered, optimizeCircuit_eq_of_reordered (.pair .xyz) rfl hreordered, by decide +kernel⟩

end Run

end RotationCircuits
