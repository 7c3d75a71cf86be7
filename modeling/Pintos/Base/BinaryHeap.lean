import Mathlib.Logic.Equiv.Basic
import Mathlib.Data.List.Nodup
import Mathlib.Data.List.Perm.Basic
import Mathlib.Algebra.Order.Ring.Int
import Mathlib.Tactic.Common

/-!
# Binary heaps

An array with the indexes `1` to `n` is a tree in which the parent of `c` is `c / 2`. Elements are
compared as in C, by the sign of a number. `HeapFrom` says that no child is larger than its parent
from an index on, `Sifting` that this holds but for the element at a hole. A sift swaps the hole with
its largest child until it is no smaller than that.
-/

namespace Pintos.Base

/-- The sign of `cmp a b` is that of `a - b` in a total preorder. -/
structure Comparison {α : Type} (cmp : α → α → Int) : Prop where
  swap : ∀ a b, cmp a b < 0 ↔ 0 < cmp b a
  trans : ∀ a b c, cmp a b ≤ 0 → cmp b c ≤ 0 → cmp a c ≤ 0

section

variable {α : Type} {cmp : α → α → Int}

theorem Comparison.le_of_lt (hc : Comparison cmp) {a b : α} (h : 0 < cmp b a) : cmp a b ≤ 0 :=
  Int.le_of_lt ((hc.swap a b).mpr h)

theorem Comparison.le_of_eq (hc : Comparison cmp) {a b : α} (h : cmp a b = 0) : cmp b a ≤ 0 := by
  have := hc.swap a b
  omega

theorem Comparison.refl (hc : Comparison cmp) (a : α) : cmp a a ≤ 0 := by
  have := hc.swap a a
  omega

end

/-! ## Rearrangements -/

/-- The elements with indexes from 1 to `n` are put in another order. -/
def Rearranged {α : Type} (n : Nat) (a b : Nat → α) : Prop :=
  ∃ σ : Equiv.Perm Nat, (∀ j, (1 ≤ σ j ∧ σ j ≤ n ↔ 1 ≤ j ∧ j ≤ n)) ∧
    (∀ j, ¬ (1 ≤ j ∧ j ≤ n) → σ j = j) ∧ b = a ∘ σ

/-- Two elements change places. -/
def swapAt {α : Type} (a : Nat → α) (i j : Nat) : Nat → α := a ∘ Equiv.swap i j

section

variable {α : Type} {n n' i j k : Nat} {a b c : Nat → α}

@[simp] theorem swapAt_left : swapAt a i j i = a j := congrArg a (Equiv.swap_apply_left i j)

@[simp] theorem swapAt_right : swapAt a i j j = a i := congrArg a (Equiv.swap_apply_right i j)

theorem swapAt_of_ne (hi : k ≠ i) (hj : k ≠ j) : swapAt a i j k = a k :=
  congrArg a (Equiv.swap_apply_of_ne_of_ne hi hj)

theorem Rearranged.refl (n : Nat) (a : Nat → α) : Rearranged n a a :=
  ⟨Equiv.refl Nat, fun _ => Iff.rfl, fun _ _ => rfl, rfl⟩

theorem Rearranged.trans (h : Rearranged n a b) (h' : Rearranged n b c) : Rearranged n a c := by
  obtain ⟨σ, hσ, hout, rfl⟩ := h
  obtain ⟨τ, hτ, hout', rfl⟩ := h'
  refine ⟨τ.trans σ, fun j => (hσ _).trans (hτ j), fun j hj => ?_, rfl⟩
  show σ (τ j) = j
  rw [hout' j hj, hout j hj]

theorem rearranged_swapAt (hi : 1 ≤ i ∧ i ≤ n) (hj : 1 ≤ j ∧ j ≤ n) (a : Nat → α) :
    Rearranged n a (swapAt a i j) := by
  refine ⟨Equiv.swap i j, fun k => ?_, fun k hk => ?_, rfl⟩
  · rw [Equiv.swap_apply_def]
    split
    · next h =>
      subst h
      exact iff_of_true hj hi
    · split
      · next h =>
        subst h
        exact iff_of_true hi hj
      · exact Iff.rfl
  · exact Equiv.swap_apply_of_ne_of_ne (fun h => hk (h ▸ hi)) (fun h => hk (h ▸ hj))

theorem Rearranged.mono (h : Rearranged n a b) (hn : n ≤ n') : Rearranged n' a b := by
  obtain ⟨σ, hσ, hout, rfl⟩ := h
  refine ⟨σ, fun j => ?_, fun j hj => hout j (by omega), rfl⟩
  by_cases hj : 1 ≤ j ∧ j ≤ n
  · have := (hσ j).mpr hj
    omega
  · rw [hout j hj]

theorem Rearranged.outside (h : Rearranged n a b) (hj : ¬ (1 ≤ j ∧ j ≤ n)) : b j = a j := by
  obtain ⟨σ, -, hout, rfl⟩ := h
  exact congrArg a (hout j hj)

/-- Each element was at some index. -/
theorem Rearranged.exists (h : Rearranged n a b) (hj : 1 ≤ j ∧ j ≤ n) :
    ∃ k, (1 ≤ k ∧ k ≤ n) ∧ b j = a k := by
  obtain ⟨σ, hσ, -, rfl⟩ := h
  exact ⟨σ j, (hσ j).mpr hj, rfl⟩

theorem Rearranged.perm (h : Rearranged n a b) :
    ((List.range n).map fun i => b (i + 1)).Perm ((List.range n).map fun i => a (i + 1)) := by
  obtain ⟨σ, hσ, -, rfl⟩ := h
  have hshift : ∀ f : Nat → α, ((List.range n).map fun i => f (i + 1)) = ((List.range n).map (· + 1)).map f :=
    fun f => by rw [List.map_map]; rfl
  have hmem : ∀ k, k ∈ (List.range n).map (· + 1) ↔ 1 ≤ k ∧ k ≤ n := by
    intro k
    rw [List.mem_map]
    constructor
    · rintro ⟨i, hi, rfl⟩
      have := List.mem_range.mp hi
      omega
    · intro hk
      exact ⟨k - 1, List.mem_range.mpr (by omega), by omega⟩
  have hnodup : ((List.range n).map (· + 1)).Nodup := List.nodup_range.map (fun _ _ h => Nat.succ.inj h)
  have hperm : (((List.range n).map (· + 1)).map σ).Perm ((List.range n).map (· + 1)) := by
    refine (List.perm_ext_iff_of_nodup (hnodup.map σ.injective) hnodup).mpr fun k => ?_
    rw [hmem, List.mem_map]
    constructor
    · rintro ⟨j, hj, rfl⟩
      exact (hσ j).mpr ((hmem j).mp hj)
    · intro hk
      refine ⟨σ.symm k, (hmem _).mpr ((hσ _).mp ?_), σ.apply_symm_apply k⟩
      rwa [σ.apply_symm_apply]
  rw [hshift, hshift, ← List.map_map]
  exact hperm.map a

end

/-! ## Heaps -/

/-- No child of a parent from `lo` on is larger than it. -/
def HeapFrom {α : Type} (cmp : α → α → Int) (a : Nat → α) (lo n : Nat) : Prop :=
  ∀ c ≤ n, lo ≤ c / 2 → cmp (a c) (a (c / 2)) ≤ 0

/-- A heap but for the children of the hole `i`, which are not larger than its parent. -/
structure Sifting {α : Type} (cmp : α → α → Int) (a : Nat → α) (lo n i : Nat) : Prop where
  low : lo ≤ i
  order : ∀ c ≤ n, lo ≤ c / 2 → c / 2 ≠ i → cmp (a c) (a (c / 2)) ≤ 0
  above : lo ≤ i / 2 → ∀ c ≤ n, c / 2 = i → cmp (a c) (a (i / 2)) ≤ 0

section

variable {α : Type} {cmp : α → α → Int} {a : Nat → α} {lo n i m : Nat}

/-- A parent is added in front of a heap. -/
theorem HeapFrom.add (h : HeapFrom cmp a (i + 1) n) (hi : 1 ≤ i) : Sifting cmp a i n i where
  low := Nat.le_refl i
  order c hc hlo hne := h c hc (by omega)
  above hlo := by omega

/-- The last element of a heap takes the place of the root. -/
theorem HeapFrom.replaceRoot (h : HeapFrom cmp a 1 (n + 1)) :
    Sifting cmp (swapAt a 1 (n + 1)) 1 n 1 where
  low := Nat.le_refl 1
  order c hc hlo hne := by
    rw [swapAt_of_ne (by omega) (by omega), swapAt_of_ne hne (by omega)]
    exact h c (by omega) hlo
  above hlo := by omega

/-- The hole is no smaller than its children. -/
theorem Sifting.stop (h : Sifting cmp a lo n i) (hi : ∀ c ≤ n, c / 2 = i → cmp (a c) (a i) ≤ 0) :
    HeapFrom cmp a lo n := by
  intro c hc hlo
  by_cases hne : c / 2 = i
  · rw [hne]
    exact hi c hc hne
  · exact h.order c hc hlo hne

/-- The hole changes places with its largest child `m`. -/
theorem Sifting.down (h : Sifting cmp a lo n i) (hlo : 1 ≤ lo) (hm : m ≤ n) (hmi : m / 2 = i)
    (hle : cmp (a i) (a m) ≤ 0) (hmax : ∀ c ≤ n, c / 2 = i → cmp (a c) (a m) ≤ 0) :
    Sifting cmp (swapAt a i m) lo n m := by
  have hi := h.low
  refine ⟨by omega, fun c hc hc2 hne => ?_, fun _ c hc hcm => ?_⟩
  · by_cases hci : c / 2 = i
    · -- a child of the hole, which now has `m` in it
      rw [hci, swapAt_left]
      by_cases hcm : c = m
      · rw [hcm, swapAt_right]
        exact hle
      · rw [swapAt_of_ne (by omega) hcm]
        exact hmax c hc hci
    · by_cases hc' : c = i
      · -- the hole itself, below its parent
        subst hc'
        rw [swapAt_left, swapAt_of_ne hci hne]
        exact h.above hc2 m hm hmi
      · rw [swapAt_of_ne hc' (fun he => hci (he ▸ hmi)), swapAt_of_ne hci hne]
        exact h.order c hc hc2 hci
  · rw [hmi, swapAt_left, swapAt_of_ne (by omega) (by omega), ← hcm]
    exact h.order c hc (by omega) (by omega)

/-- The child instead of `m`, if there is one and it is larger. -/
def largerOf (cmp : α → α → Int) (a : Nat → α) (n child m : Nat) : Nat :=
  if child ≤ n ∧ 0 < cmp (a child) (a m) then child else m

theorem largerOf_spec (hc : Comparison cmp) (a : Nat → α) (n child m : Nat) :
    cmp (a m) (a (largerOf cmp a n child m)) ≤ 0 ∧
      (child ≤ n → cmp (a child) (a (largerOf cmp a n child m)) ≤ 0) ∧
      (largerOf cmp a n child m = m ∨ largerOf cmp a n child m = child ∧ child ≤ n) := by
  unfold largerOf
  split
  · next h => exact ⟨hc.le_of_lt h.2, fun _ => hc.refl _, .inr ⟨rfl, h.1⟩⟩
  · next h => exact ⟨hc.refl _, fun hle => Int.not_lt.mp fun hlt => h ⟨hle, hlt⟩, .inl rfl⟩

/-- The largest among a parent and its children. -/
def largest (cmp : α → α → Int) (a : Nat → α) (n i : Nat) : Nat :=
  largerOf cmp a n (2 * i + 1) (largerOf cmp a n (2 * i) i)

theorem largest_spec (hc : Comparison cmp) (a : Nat → α) (n i : Nat) :
    cmp (a i) (a (largest cmp a n i)) ≤ 0 ∧ (∀ c ≤ n, c / 2 = i → cmp (a c) (a (largest cmp a n i)) ≤ 0) ∧
      (largest cmp a n i = i ∨ largest cmp a n i ≤ n ∧ largest cmp a n i / 2 = i) := by
  obtain ⟨h1, h2, h3⟩ := largerOf_spec hc a n (2 * i) i
  obtain ⟨h4, h5, h6⟩ := largerOf_spec hc a n (2 * i + 1) (largerOf cmp a n (2 * i) i)
  refine ⟨hc.trans _ _ _ h1 h4, fun c hcn hci => ?_, ?_⟩
  · obtain rfl | rfl : c = 2 * i ∨ c = 2 * i + 1 := by omega
    · exact hc.trans _ _ _ (h2 hcn) h4
    · exact h5 hcn
  · unfold largest
    omega

/-- The root is a largest element. -/
theorem HeapFrom.root (hc : Comparison cmp) (h : HeapFrom cmp a 1 n) (j : Nat) (h1 : 1 ≤ j) (hj : j ≤ n) :
    cmp (a j) (a 1) ≤ 0 := by
  induction j using Nat.strongRecOn with
  | ind j ih =>
    by_cases he : j = 1
    · rw [he]
      exact hc.refl _
    · exact hc.trans _ _ _ (h j hj (by omega)) (ih (j / 2) (by omega) (by omega) (by omega))

end

end Pintos.Base
