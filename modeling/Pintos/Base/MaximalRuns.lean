import Mathlib.Data.List.Basic
import Mathlib.Tactic.Common

/-!
# Maximal runs in a list

A maximal run of a predicate is a non-empty range of positions on which it holds and that cannot be
made longer. The lemmas find the runs from the left: those from a position on, when the list goes on
there with elements outside of every run, or with a run.
-/

namespace Pintos.Base

/-- The positions from `a` up to `b` are a maximal run of `p`. -/
structure MaximalRun {α : Type} (p : α → Prop) (l : List α) (a b : Nat) : Prop where
  nonempty : a < b
  inside : ∀ i, a ≤ i → i < b → ∃ c, l[i]? = some c ∧ p c
  left : ∀ i, i + 1 = a → ∀ c, l[i]? = some c → ¬ p c
  right : ∀ c, l[b]? = some c → ¬ p c

section

variable {α : Type} {p : α → Prop} {l pre w rest : List α} {a b : Nat} {c : α}

theorem getElem?_middle {i : Nat} (hi : i < w.length) :
    (pre ++ (w ++ rest))[pre.length + i]? = some w[i] := by
  rw [List.getElem?_append_right (by omega), Nat.add_sub_cancel_left, List.getElem?_append_left hi,
    List.getElem?_eq_getElem hi]

/-- The elements in front of the first one outside of `p`. -/
theorem exists_prefix (p : α → Prop) (l : List α) :
    ∃ u v, l = u ++ v ∧ (∀ c ∈ u, p c) ∧ ∀ c ∈ v.head?, ¬ p c := by
  induction l with
  | nil => exact ⟨[], [], rfl, fun _ h => absurd h List.not_mem_nil, fun _ h => by cases h⟩
  | cons c l ih =>
    by_cases hc : p c
    · obtain ⟨u, v, rfl, hu, hv⟩ := ih
      exact ⟨c :: u, v, rfl, List.forall_mem_cons.mpr ⟨hc, hu⟩, hv⟩
    · refine ⟨[], c :: l, rfl, fun _ h => absurd h List.not_mem_nil, fun b hb => ?_⟩
      cases hb
      exact hc

/-- No run begins on elements outside of `p`. -/
theorem MaximalRun.skip (h : MaximalRun p (pre ++ (w ++ rest)) a b) (hw : ∀ c ∈ w, ¬ p c)
    (ha : pre.length ≤ a) : pre.length + w.length ≤ a := by
  by_contra hlt
  obtain ⟨i, rfl⟩ := Nat.exists_eq_add_of_le ha
  have hi : i < w.length := by omega
  obtain ⟨c, hc, hp⟩ := h.inside _ (Nat.le_refl _) h.nonempty
  rw [getElem?_middle hi] at hc
  cases hc
  exact hw _ (List.getElem_mem hi) hp

/-- The run that begins at a boundary. -/
theorem maximalRun_here (hpre : ∀ c ∈ pre.getLast?, ¬ p c) (hw : ∀ c ∈ w, p c) (hne : w ≠ [])
    (hrest : ∀ c ∈ rest.head?, ¬ p c) :
    MaximalRun p (pre ++ (w ++ rest)) pre.length (pre.length + w.length) := by
  have hlen := List.length_pos_iff.mpr hne
  refine ⟨by omega, fun i h1 h2 => ?_, fun i hi c hc => hpre c ?_, fun c hc => hrest c ?_⟩
  · obtain ⟨j, rfl⟩ := Nat.exists_eq_add_of_le h1
    have hj : j < w.length := by omega
    exact ⟨_, getElem?_middle hj, hw _ (List.getElem_mem hj)⟩
  · rw [List.getLast?_eq_getElem?, ← hi, Nat.add_sub_cancel]
    rwa [List.getElem?_append_left (by omega)] at hc
  · rw [List.head?_eq_getElem?]
    rwa [← List.append_assoc, List.getElem?_append_right (by simp), List.length_append,
      Nat.sub_self] at hc

/-- A run at or behind a boundary is the one that begins there, or behind it. -/
theorem MaximalRun.first (h : MaximalRun p (pre ++ (w ++ rest)) a b) (hw : ∀ c ∈ w, p c)
    (hrest : ∀ c ∈ rest.head?, ¬ p c) (ha : pre.length ≤ a) :
    a = pre.length ∧ b = pre.length + w.length ∨ pre.length + w.length ≤ a := by
  by_cases hlt : pre.length + w.length ≤ a
  · exact .inr hlt
  left
  have hmem : ∀ i, pre.length ≤ i → i < pre.length + w.length →
      ∃ c, (pre ++ (w ++ rest))[i]? = some c ∧ p c := by
    intro i h1 h2
    obtain ⟨j, rfl⟩ := Nat.exists_eq_add_of_le h1
    have hj : j < w.length := by omega
    exact ⟨_, getElem?_middle hj, hw _ (List.getElem_mem hj)⟩
  have hab := h.nonempty
  have ha' : a = pre.length := by
    by_contra hne
    obtain ⟨c, hc, hp⟩ := hmem (a - 1) (by omega) (by omega)
    exact h.left (a - 1) (by omega) c hc hp
  have hb1 : pre.length + w.length ≤ b := by
    by_contra hb
    obtain ⟨c, hc, hp⟩ := hmem b (by omega) (by omega)
    exact h.right c hc hp
  have hb2 : b ≤ pre.length + w.length := by
    by_contra hb
    obtain ⟨c, hc, hp⟩ := h.inside (pre.length + w.length) (by omega) (by omega)
    rw [← List.append_assoc, List.getElem?_append_right (by simp), List.length_append,
      Nat.sub_self] at hc
    exact hrest c (by rw [List.head?_eq_getElem?]; exact hc) hp
  exact ⟨ha', by omega⟩

/-- A run ends inside the list. -/
theorem MaximalRun.le_length (h : MaximalRun p l a b) : b ≤ l.length := by
  by_contra hb
  obtain ⟨c, hc, -⟩ := h.inside (b - 1) (by have := h.nonempty; omega) (by have := h.nonempty; omega)
  rw [List.getElem?_eq_none (by omega)] at hc
  cases hc

end

end Pintos.Base
