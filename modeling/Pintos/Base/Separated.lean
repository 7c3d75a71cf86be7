import Mathlib.Data.List.Basic
import Mathlib.Tactic.Common

/-!
# Lists with separators

`separated sep g k l` writes the elements of `l` one after the other, with `sep` in front of every
element whose number is a multiple of `g`; the first of them has number `k`, and element 0 has no
separator. Without the separators it is `l` again, and they stand at every `g + 1`st place.
-/

namespace Pintos.Base

variable {α : Type}

def separated (sep : α) (g : Nat) : Nat → List α → List α
  | _, [] => []
  | k, a :: l => (if 0 < k ∧ k % g = 0 then [sep, a] else [a]) ++ separated sep g (k + 1) l

variable {sep : α} {g k : Nat} {l : List α}

@[simp] theorem separated_nil : separated sep g k [] = [] := rfl

theorem separated_eq_nil : separated sep g k l = [] ↔ l = [] := by
  cases l with
  | nil => simp
  | cons a l =>
    simp only [separated, List.append_eq_nil_iff, reduceCtorEq, iff_false, not_and]
    split <;> simp

theorem separated_length_le : (separated sep g k l).length ≤ 2 * l.length := by
  induction l generalizing k with
  | nil => exact Nat.le_refl 0
  | cons a l ih =>
    have := ih (k := k + 1)
    rw [separated, List.length_append, List.length_cons]
    split <;> simp only [List.length_cons, List.length_nil] <;> omega

theorem mem_separated {a : α} (h : a ∈ separated sep g k l) : a = sep ∨ a ∈ l := by
  induction l generalizing k with
  | nil => cases h
  | cons b l ih =>
    rw [separated, List.mem_append] at h
    rcases h with h | h
    · split at h
      · simp only [List.mem_cons, List.not_mem_nil, or_false] at h
        rcases h with rfl | rfl
        · exact .inl rfl
        · exact .inr (List.mem_cons_self ..)
      · rw [List.mem_singleton] at h
        exact .inr (h ▸ List.mem_cons_self ..)
    · exact (ih h).imp id (List.mem_cons_of_mem _)

theorem separated_getLast? (hl : l ≠ []) : (separated sep g k l).getLast? = l.getLast? := by
  induction l generalizing k with
  | nil => exact absurd rfl hl
  | cons a l ih =>
    rw [separated]
    cases l with
    | nil => split <;> simp
    | cons b l =>
      rw [List.getLast?_append, ih (by simp), List.getLast?_cons_cons, List.getLast?_cons]
      rfl

/-- How many places the first `k` elements take, `q` separators among them. -/
structure Place (g k q r : Nat) : Prop where
  count : k = q * g + r
  le : r ≤ g
  pos : 0 < r ∨ k = 0

theorem Place.sep_iff {q r : Nat} (h : Place g k q r) (hg : 0 < g) :
    0 < k ∧ k % g = 0 ↔ r = g := by
  obtain ⟨rfl, hle, hpos⟩ := h
  rw [Nat.mul_add_mod_self_right]
  constructor
  · rintro ⟨hk, hr⟩
    rcases hpos with hr0 | h0
    · by_contra hne
      rw [Nat.mod_eq_of_lt (by omega)] at hr
      omega
    · omega
  · rintro rfl
    exact ⟨by omega, Nat.mod_self r⟩

theorem Place.mod {q r : Nat} (h : Place g k q r) : (k + q) % (g + 1) = r := by
  obtain ⟨rfl, hle, -⟩ := h
  rw [show q * g + r + q = q * (g + 1) + r by rw [Nat.mul_succ]; omega, Nat.mul_add_mod_self_right,
    Nat.mod_eq_of_lt (by omega)]

theorem separated_length_of_place {q r : Nat} (hg : 0 < g) (hp : Place g k q r) :
    (separated sep g k l).length + q = l.length + (k + l.length - 1) / g := by
  induction l generalizing k q r with
  | nil =>
    obtain ⟨rfl, hle, hpos⟩ := hp
    have hq : (q * g + r - 1) / g = q := by
      rcases hpos with hr | h0
      · rw [show q * g + r - 1 = q * g + (r - 1) by omega, Nat.mul_comm, Nat.mul_add_div hg,
          Nat.div_eq_of_lt (by omega), Nat.add_zero]
      · rw [h0, Nat.zero_sub, Nat.zero_div]
        rcases Nat.mul_eq_zero.mp (show q * g = 0 by omega) with h | h <;> omega
    simp [hq]
  | cons a l ih =>
    rw [separated, List.length_append, List.length_cons]
    by_cases hr : r = g
    · rw [if_pos ((hp.sep_iff hg).mpr hr)]
      have h := ih (k := k + 1) (q := q + 1) (r := 1)
        ⟨by rw [hp.count, hr, Nat.succ_mul], hg, .inl Nat.one_pos⟩
      rw [show k + (l.length + 1) - 1 = k + 1 + l.length - 1 by omega]
      simp only [List.length_cons, List.length_nil]
      omega
    · rw [if_neg ((hp.sep_iff hg).not.mpr hr)]
      have h := ih (k := k + 1) (q := q) (r := r + 1)
        ⟨by rw [hp.count]; rfl, by have := hp.le; omega, .inl (Nat.succ_pos r)⟩
      rw [show k + (l.length + 1) - 1 = k + 1 + l.length - 1 by omega]
      simp only [List.length_cons, List.length_nil]
      omega

theorem separated_length (hg : 0 < g) :
    (separated sep g 0 l).length = l.length + (l.length - 1) / g := by
  have hp : Place g 0 0 0 := ⟨(Nat.zero_mul g).symm, Nat.zero_le g, .inr rfl⟩
  have h : (separated sep g 0 l).length + 0 = _ := separated_length_of_place hg hp
  rwa [Nat.add_zero, Nat.zero_add] at h

end Pintos.Base
