import Mathlib.Data.List.Basic
import Mathlib.Logic.Function.Basic
import Mathlib.Tactic.Common

/-!
# Ring buffers

`n` cells, written at `head` and read at `tail`; the positions go round. `Holds` says which list is
in the buffer, the oldest element first. One cell stays free, so that a full buffer is not taken for
an empty one.
-/

namespace Pintos.Base

/-- The buffer holds the list. -/
structure Holds {α : Type} (n : Nat) (buf : Nat → α) (head tail : Nat) (l : List α) : Prop where
  tail_lt : tail < n
  head_eq : head = (tail + l.length) % n
  room : l.length < n
  cell : ∀ i (h : i < l.length), buf ((tail + i) % n) = l[i]

section

variable {α : Type} {n head tail : Nat} {buf : Nat → α} {l : List α} {x : α}

/-- A position at most one round ahead. -/
theorem wrap_eq {k : Nat} (ht : tail < n) (hk : k ≤ n) :
    (tail + k) % n = if tail + k < n then tail + k else tail + k - n := by
  split
  · next h => exact Nat.mod_eq_of_lt h
  · next h => rw [Nat.mod_eq_sub_mod (Nat.not_lt.mp h), Nat.mod_eq_of_lt (by omega)]

theorem wrap_inj {i j : Nat} (ht : tail < n) (hi : i < n) (hj : j < n)
    (h : (tail + i) % n = (tail + j) % n) : i = j := by
  rw [wrap_eq ht (Nat.le_of_lt hi), wrap_eq ht (Nat.le_of_lt hj)] at h
  split at h <;> split at h <;> omega

theorem holds_nil (buf : Nat → α) (h : 0 < n) : Holds n buf 0 0 [] where
  tail_lt := h
  head_eq := (Nat.zero_mod n).symm
  room := h
  cell _ h := absurd h (Nat.not_lt_zero _)

theorem Holds.head_lt (h : Holds n buf head tail l) : head < n := by
  rw [h.head_eq]
  exact Nat.mod_lt _ (Nat.zero_lt_of_lt h.tail_lt)

theorem Holds.empty_iff (h : Holds n buf head tail l) : head = tail ↔ l = [] := by
  rw [← List.length_eq_zero_iff, h.head_eq]
  have ht : (tail + 0) % n = tail := Nat.mod_eq_of_lt h.tail_lt
  constructor
  · intro he
    exact wrap_inj h.tail_lt h.room (Nat.zero_lt_of_lt h.tail_lt) (he.trans ht.symm)
  · intro hl
    rw [hl, ht]

theorem Holds.next_head (h : Holds n buf head tail l) : (head + 1) % n = (tail + (l.length + 1)) % n := by
  rw [h.head_eq, Nat.mod_add_mod, Nat.add_assoc]

theorem Holds.full_iff (h : Holds n buf head tail l) : (head + 1) % n = tail ↔ l.length + 1 = n := by
  rw [h.next_head, wrap_eq h.tail_lt h.room]
  have := h.tail_lt
  have := h.room
  split <;> omega

/-- **Writing an element** when there is room for one more. -/
theorem Holds.push (h : Holds n buf head tail l) (hl : l.length + 1 < n) (x : α) :
    Holds n (Function.update buf head x) ((head + 1) % n) tail (l ++ [x]) := by
  refine ⟨h.tail_lt, ?_, ?_, fun i hi => ?_⟩
  · rw [h.next_head, List.length_append, List.length_singleton]
  · rw [List.length_append, List.length_singleton]
    exact hl
  · rw [List.length_append, List.length_singleton] at hi
    by_cases he : i = l.length
    · subst he
      rw [← h.head_eq, Function.update_self, List.getElem_concat_length rfl]
    · have hne : (tail + i) % n ≠ head := by
        rw [h.head_eq]
        exact fun hw => he (wrap_inj h.tail_lt (by omega) h.room hw)
      rw [Function.update_of_ne hne, h.cell i (by omega), List.getElem_append_left]

/-- **Reading the oldest element.** -/
theorem Holds.pop (h : Holds n buf head tail (x :: l)) :
    buf tail = x ∧ Holds n buf head ((tail + 1) % n) l := by
  have hlen : (x :: l).length = l.length + 1 := List.length_cons
  have hwrap : ∀ i, ((tail + 1) % n + i) % n = (tail + (i + 1)) % n := by
    intro i
    rw [Nat.mod_add_mod, Nat.add_assoc, Nat.add_comm 1 i]
  refine ⟨?_, Nat.mod_lt _ (Nat.zero_lt_of_lt h.tail_lt), ?_, ?_, fun i hi => ?_⟩
  · have h0 := h.cell 0 (by omega)
    rwa [Nat.add_zero, Nat.mod_eq_of_lt h.tail_lt] at h0
  · rw [hwrap, h.head_eq, hlen]
  · have := h.room
    omega
  · rw [hwrap, h.cell (i + 1) (by omega)]
    rfl

end

end Pintos.Base
