import Mathlib.Logic.Basic

/-!
# Owners of disjoint sets

A family of owners, each with a set of units: the units of the live owners are
marked, and no unit belongs to two of them. The rules say what allocation and
release do to the family.
-/

namespace Pintos.Base

variable {ι α : Type}

/-- The units of the live owners are marked and belong to one owner each. -/
structure Owns (live : ι → Prop) (units : ι → α → Prop) (marked : α → Prop) : Prop where
  marked : ∀ x t, live x → units x t → marked t
  disjoint : ∀ x y t, live x → live y → units x t → units y t → x = y

section

variable {live live' : ι → Prop} {units units' : ι → α → Prop} {marked marked' : α → Prop}

theorem Owns.mono (h : Owns live units marked) (hl : ∀ x, live' x → live x)
    (hu : ∀ x t, live' x → units' x t → units x t) (hm : ∀ t, marked t → marked' t) :
    Owns live' units' marked' where
  marked x t hx ht := hm t (h.marked x t (hl x hx) (hu x t hx ht))
  disjoint x y t hx hy hxt hyt := h.disjoint x y t (hl x hx) (hl y hy) (hu x t hx hxt) (hu y t hy hyt)

/-- **Allocation**: an owner whose units are marked and no one else's joins. -/
theorem Owns.insert {z : ι} (h : Owns live units marked) (hz : ∀ t, units z t → marked t)
    (hd : ∀ x t, live x → units x t → ¬ units z t) (hl : ∀ x, live' x → live x ∨ x = z) :
    Owns live' units marked where
  marked x t hx ht := by
    rcases hl x hx with hx | rfl
    · exact h.marked x t hx ht
    · exact hz t ht
  disjoint x y t hx hy hxt hyt := by
    rcases hl x hx with hx | rfl <;> rcases hl y hy with hy | rfl
    · exact h.disjoint x y t hx hy hxt hyt
    · exact absurd hyt (hd x t hx hxt)
    · exact absurd hxt (hd y t hy hyt)
    · rfl

/-- **Release**: an owner leaves, and marks are taken from its units only. -/
theorem Owns.release {z : ι} (h : Owns live units marked) (hz : live z)
    (hl : ∀ x, live' x → live x ∧ x ≠ z) (hm : ∀ t, marked t → marked' t ∨ units z t) :
    Owns live' units marked' where
  marked x t hx ht := by
    obtain ⟨hx, hne⟩ := hl x hx
    refine (hm t (h.marked x t hx ht)).resolve_right fun hzt => ?_
    exact hne (h.disjoint x z t hx hz ht hzt)
  disjoint x y t hx hy := h.disjoint x y t (hl x hx).1 (hl y hy).1

/-- **Transfer**: every unit owned afterwards was owned before, by the owner that `φ`
names, and the marks of these units stay. -/
theorem Owns.transfer (φ : ι → ι) (h : Owns live units marked)
    (hu : ∀ x t, live' x → units' x t → live (φ x) ∧ units (φ x) t)
    (hφ : ∀ x y t, live' x → units' x t → live' y → units' y t → φ x = φ y → x = y)
    (hm : ∀ x t, live' x → units' x t → marked t → marked' t) : Owns live' units' marked' where
  marked x t hx ht := by
    obtain ⟨hl, hut⟩ := hu x t hx ht
    exact hm x t hx ht (h.marked (φ x) t hl hut)
  disjoint x y t hx hy hxt hyt := by
    obtain ⟨hlx, hux⟩ := hu x t hx hxt
    obtain ⟨hly, huy⟩ := hu y t hy hyt
    exact hφ x y t hx hxt hy hyt (h.disjoint (φ x) (φ y) t hlx hly hux huy)

/-- **Growth**: an owner takes a unit that was not marked. -/
theorem Owns.grow {z : ι} {a : α} (h : Owns live units marked) (ha : ¬ marked a)
    (hu : ∀ x t, live x → units' x t → units x t ∨ (x = z ∧ t = a))
    (hm : ∀ t, marked t ∨ t = a → marked' t) : Owns live units' marked' where
  marked x t hx ht := by
    rcases hu x t hx ht with hut | ⟨-, rfl⟩
    · exact hm t (.inl (h.marked x t hx hut))
    · exact hm t (.inr rfl)
  disjoint x y t hx hy hxt hyt := by
    rcases hu x t hx hxt with hux | ⟨rfl, rfl⟩ <;> rcases hu y t hy hyt with huy | ⟨rfl, hta⟩
    · exact h.disjoint x y t hx hy hux huy
    · exact absurd (h.marked x t hx hux) (hta ▸ ha)
    · exact absurd (h.marked y t hy huy) ha
    · rfl

end

end Pintos.Base
