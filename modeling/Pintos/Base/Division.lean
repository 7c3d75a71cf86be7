import Mathlib.Tactic.Common
import Mathlib.Algebra.Order.Ring.Nat
import Mathlib.Tactic.Ring

/-!
# Division of two digits

The steps of a long division of natural numbers of two digits: by one digit, in two divisions, and
by two digits, with the quotient estimated from the leading digit of the normalised divisor.
-/

namespace Pintos.Base

section

variable {b n₁ n₀ d n w s : Nat}

/-- **Two digits by one**: the digits of the quotient one after the other. -/
theorem shortDivision (hd : 0 < d) :
    (b * n₁ + n₀) / d = b * (n₁ / d) + (b * (n₁ % d) + n₀) / d := by
  have hsplit : b * n₁ + n₀ = b * (n₁ % d) + n₀ + d * (b * (n₁ / d)) := by
    calc b * n₁ + n₀ = b * (d * (n₁ / d) + n₁ % d) + n₀ := by rw [Nat.div_add_mod]
      _ = b * (n₁ % d) + n₀ + d * (b * (n₁ / d)) := by ring
  rw [hsplit, Nat.add_mul_div_left _ _ hd, Nat.add_comm]

/-- The second digit is below the base. -/
theorem shortDivision_lt (hd : 0 < d) (h₀ : n₀ < b) : (b * (n₁ % d) + n₀) / d < b := by
  apply Nat.div_lt_of_lt_mul
  have hmod : n₁ % d + 1 ≤ d := Nat.mod_lt n₁ hd
  calc b * (n₁ % d) + n₀ < b * (n₁ % d) + b := Nat.add_lt_add_left h₀ _
    _ = (n₁ % d + 1) * b := by ring
    _ ≤ d * b := Nat.mul_le_mul_right b hmod

/-- The divisor that the estimate stands for: `d` without its last `w - s` bits. -/
theorem truncated_le (hs : s ≤ w) : d * 2 ^ s / 2 ^ w * 2 ^ (w - s) ≤ d ∧
    d + 1 ≤ d * 2 ^ s / 2 ^ w * 2 ^ (w - s) + 2 ^ (w - s) := by
  have hpow : 2 ^ w = 2 ^ (w - s) * 2 ^ s := by rw [← Nat.pow_add, Nat.sub_add_cancel hs]
  have hdiv : d * 2 ^ s / 2 ^ w = d / 2 ^ (w - s) := by
    rw [hpow, Nat.mul_div_mul_right _ _ (Nat.two_pow_pos s)]
  rw [hdiv]
  have hmod := Nat.mod_lt d (Nat.two_pow_pos (w - s))
  have hsplit := Nat.div_add_mod d (2 ^ (w - s))
  rw [Nat.mul_comm] at hsplit
  exact ⟨Nat.div_mul_le_self d _, by omega⟩

/-- The quotient by the leading digit has one digit. -/
theorem estimate_fits (hlow : 2 ^ (2 * w - 1) ≤ d * 2 ^ s) (hn : n < 2 ^ (2 * w)) (hw : 0 < w) :
    n / 2 / (d * 2 ^ s / 2 ^ w) < 2 ^ w := by
  apply Nat.div_lt_of_lt_mul
  have hv : 2 ^ (w - 1) ≤ d * 2 ^ s / 2 ^ w := by
    rw [Nat.le_div_iff_mul_le (Nat.two_pow_pos w), ← Nat.pow_add]
    rwa [show w - 1 + w = 2 * w - 1 by omega]
  have hhalf : 2 ^ (2 * w) = 2 * 2 ^ (2 * w - 1) := by
    rw [← Nat.pow_succ', Nat.succ_eq_add_one, Nat.sub_add_cancel (by omega)]
  calc n / 2 < 2 ^ (2 * w - 1) := by omega
    _ = 2 ^ (w - 1) * 2 ^ w := by rw [← Nat.pow_add, show w - 1 + w = 2 * w - 1 by omega]
    _ ≤ d * 2 ^ s / 2 ^ w * 2 ^ w := Nat.mul_le_mul_right _ hv

/-- **Two digits by two**: the estimate is the quotient or one more. -/
theorem estimate_quotient (hs : s < w) (hlow : 2 ^ (2 * w - 1) ≤ d * 2 ^ s)
    (hn : n < 2 ^ (2 * w)) : n / d ≤ n / 2 / (d * 2 ^ s / 2 ^ w) / 2 ^ (w - 1 - s) ∧
      n / 2 / (d * 2 ^ s / 2 ^ w) / 2 ^ (w - 1 - s) ≤ n / d + 1 := by
  obtain ⟨hle, hlt⟩ := truncated_le (d := d) (Nat.le_of_lt hs)
  have hv : 2 ^ (w - 1) ≤ d * 2 ^ s / 2 ^ w := by
    rw [Nat.le_div_iff_mul_le (Nat.two_pow_pos w), ← Nat.pow_add]
    rwa [show w - 1 + w = 2 * w - 1 by omega]
  generalize d * 2 ^ s / 2 ^ w = v at hle hlt hv
  have hest : n / 2 / v / 2 ^ (w - 1 - s) = n / (v * 2 ^ (w - s)) := by
    rw [Nat.div_div_eq_div_mul, Nat.div_div_eq_div_mul]
    congr 1
    rw [show w - s = w - 1 - s + 1 by omega, Nat.pow_succ]
    ring
  rw [hest]
  have hd : 0 < d := by
    rcases Nat.eq_zero_or_pos d with rfl | hd
    · rw [Nat.zero_mul] at hlow
      exact absurd hlow (Nat.not_le.mpr (Nat.two_pow_pos _))
    · exact hd
  have he : 0 < v * 2 ^ (w - s) :=
    Nat.mul_pos (Nat.lt_of_lt_of_le (Nat.two_pow_pos _) hv) (Nat.two_pow_pos _)
  refine ⟨Nat.div_le_div_left hle he, Nat.le_of_lt_succ (Nat.div_lt_of_lt_mul ?_)⟩
  -- The quotient is small where the bits left out are many.
  have hk : n / d + 1 ≤ 2 ^ (s + 1) := by
    refine Nat.div_lt_of_lt_mul (Nat.lt_of_lt_of_le hn ?_)
    calc 2 ^ (2 * w) = 2 ^ (2 * w - 1) * 2 := by rw [← Nat.pow_succ]; congr 1; omega
      _ ≤ d * 2 ^ s * 2 := Nat.mul_le_mul_right 2 hlow
      _ = d * 2 ^ (s + 1) := by rw [Nat.pow_succ]; ring
  have hrest : (2 ^ (w - s) - 1) * (n / d + 1) ≤ v * 2 ^ (w - s) := by
    rcases Nat.lt_or_ge (s + 1) w with hsw | hsw
    · have hkv : n / d + 1 ≤ v := hk.trans ((Nat.pow_le_pow_right (by decide) (by omega)).trans hv)
      calc (2 ^ (w - s) - 1) * (n / d + 1) ≤ 2 ^ (w - s) * v :=
            Nat.mul_le_mul (Nat.sub_le _ _) hkv
        _ = v * 2 ^ (w - s) := Nat.mul_comm _ _
    · have hws : w - s = 1 := by omega
      calc (2 ^ (w - s) - 1) * (n / d + 1) = n / d + 1 := by rw [hws]; ring
        _ ≤ 2 ^ (w - 1 + 1) := by rwa [show w - 1 + 1 = s + 1 by omega]
        _ ≤ v * 2 ^ (w - s) := by rw [hws, Nat.pow_succ]; exact Nat.mul_le_mul_right _ hv
  calc n < d * (n / d + 1) := Nat.lt_mul_div_succ n hd
    _ ≤ (v * 2 ^ (w - s) + (2 ^ (w - s) - 1)) * (n / d + 1) := Nat.mul_le_mul_right _ (by omega)
    _ = v * 2 ^ (w - s) * (n / d + 1) + (2 ^ (w - s) - 1) * (n / d + 1) := Nat.add_mul _ _ _
    _ ≤ v * 2 ^ (w - s) * (n / d + 1) + v * 2 ^ (w - s) := Nat.add_le_add_left hrest _
    _ = v * 2 ^ (w - s) * (n / d + 1 + 1) := (Nat.mul_succ _ _).symm

end

end Pintos.Base
