import Mathlib.Data.List.Basic
import Pintos.Base.BinaryHeap
import Pintos.Lib.ByteMemory

/-!
# Arrays of elements (lib/stdlib.c)

`bsearch` and `sort` know an element by its address and its size. The function that compares two
elements gets their addresses, and all that is known of it is what it answers for elements of the
array.
-/

namespace Pintos.Lib

open Pintos.Base

/-- The bytes of an element. -/
abbrev Element (size : Nat) : Type := Vector UInt8 size

/-- The element with the index `i`. -/
def elem (m : Ram) (array size i : Nat) : Element size :=
  Vector.ofFn fun k => (m.byte (array + i * size + k)).getD 0

/-- The elements of an array in their order. -/
def elems (m : Ram) (array size cnt : Nat) : List (Element size) :=
  (List.range cnt).map (elem m array size)

/-- A pointer to `compare` with its auxiliary data. -/
abbrev Compare : Type := Nat → Nat → RamM Int

section

variable {m m' : Ram} {array size cnt i j : Nat}

/-- An element is inside the array. -/
theorem slot_le (size : Nat) (h : i < cnt) : i * size + size ≤ cnt * size := by
  rw [← Nat.succ_mul]
  exact Nat.mul_le_mul_right size h

theorem Block.slot (h : Block m array (cnt * size)) (hi : i < cnt) (hs : 0 < size) :
    Block m (array + i * size) size := by
  have hle := slot_le size hi
  have hbound := h.bound (by omega)
  refine ⟨by omega, fun k hk => ?_⟩
  rw [Nat.add_assoc]
  exact h.bytes _ (by omega)

theorem elem_congr (h : ∀ k < size, m'.byte (array + j * size + k) = m.byte (array + i * size + k)) :
    elem m' array size j = elem m array size i := by
  unfold elem
  congr 1
  funext k
  rw [h k k.isLt]

theorem pairwise_elems {R : Element size → Element size → Prop} :
    (elems m array size cnt).Pairwise R ↔
      ∀ i j, i < j → j < cnt → R (elem m array size i) (elem m array size j) := by
  rw [elems, List.pairwise_map, List.pairwise_iff_getElem]
  constructor
  · intro h i j hij hj
    have hij' := h i j (by rw [List.length_range]; omega) (by rwa [List.length_range]) hij
    rwa [List.getElem_range, List.getElem_range] at hij'
  · intro h i j hi hj hij
    rw [List.length_range] at hj
    rw [List.getElem_range, List.getElem_range]
    exact h i j hij hj

end

end Pintos.Lib
