import Pintos.Base.Division

/-!
# 64-bit division (lib/arithmetic.c)

`divl` divides 64 bits by 32 and traps when the quotient has more than 32 bits. `udiv64` makes a
64-bit division of one or two of them, and the other routines make theirs of `udiv64`. The
remainders are returned as 32-bit integers.
-/

namespace Pintos.Lib

open Pintos.Base

/-- The divide error of the processor. -/
inductive Trap where
  | divideError
  deriving DecidableEq, Repr

def divl (n : BitVec 64) (d : BitVec 32) : Except Trap (BitVec 32) :=
  if d = 0 ∨ 2 ^ 32 ≤ n.toNat / d.toNat then .error .divideError
  else .ok (BitVec.ofNat 32 (n.toNat / d.toNat))

/-- One step of `nlz`: `k` more leading zeros if `x` is at most `bound`. -/
def nlzStep (k : Nat) (bound : BitVec 32) (p : Nat × BitVec 32) : Nat × BitVec 32 :=
  if p.2 ≤ bound then (p.1 + k, p.2 <<< k) else p

def nlz (x : BitVec 32) : Nat :=
  let p := nlzStep 16 0x0000ffff (0, x)
  let p := nlzStep 8 0x00ffffff p
  let p := nlzStep 4 0x0fffffff p
  let p := nlzStep 2 0x3fffffff p
  if p.2 ≤ 0x7fffffff then p.1 + 1 else p.1

def udiv64 (n d : BitVec 64) : Except Trap (BitVec 64) :=
  if d >>> 32 = 0 then do
    let b : BitVec 64 := 1#64 <<< 32
    let n1 : BitVec 32 := (n >>> 32).setWidth 32
    let n0 : BitVec 32 := n.setWidth 32
    let d0 : BitVec 32 := d.setWidth 32
    let q ← divl (b * (n1 % d0).setWidth 64 + n0.setWidth 64) d0
    pure (q.setWidth 64 + b * (n1 / d0).setWidth 64)
  else if n < d then pure 0
  else do
    let d1 : BitVec 32 := (d >>> 32).setWidth 32
    let s := nlz d1
    let q ← divl (n >>> 1) (((d <<< s) >>> 32).setWidth 32)
    let q : BitVec 64 := (q >>> (31 - s)).setWidth 64
    pure (if n - (q - 1) * d < d then q - 1 else q)

def umod64 (n d : BitVec 64) : Except Trap (BitVec 32) := do
  let q ← udiv64 n d
  pure ((n - d * q).setWidth 32)

/-- The absolute value, as an unsigned number. -/
def abs64 (n : BitVec 64) : BitVec 64 := if 0 ≤ n.toInt then n else -n

def sdiv64 (n d : BitVec 64) : Except Trap (BitVec 64) := do
  let q ← udiv64 (abs64 n) (abs64 d)
  pure (if decide (n.toInt < 0) = decide (d.toInt < 0) then q else -q)

def smod64 (n d : BitVec 64) : Except Trap (BitVec 32) := do
  let q ← sdiv64 n d
  pure ((n - d * q).setWidth 32)

/-! ## The routines that GCC calls -/

def divdi3 (n d : BitVec 64) : Except Trap (BitVec 64) := sdiv64 n d

/-- The `int32_t` is widened with its sign. -/
def moddi3 (n d : BitVec 64) : Except Trap (BitVec 64) := (smod64 n d).map (·.signExtend 64)

def udivdi3 (n d : BitVec 64) : Except Trap (BitVec 64) := udiv64 n d

/-- The `uint32_t` is widened with zeros. -/
def umoddi3 (n d : BitVec 64) : Except Trap (BitVec 64) := (umod64 n d).map (·.setWidth 64)

/-! ## Leading zeros -/

theorem divl_ok {n : BitVec 64} {d : BitVec 32} (hd : d ≠ 0) (hq : n.toNat / d.toNat < 2 ^ 32) :
    ∃ q, divl n d = .ok q ∧ q.toNat = n.toNat / d.toNat := by
  refine ⟨_, if_neg ?_, Nat.mod_eq_of_lt hq⟩
  rintro (h | h)
  · exact hd h
  · exact absurd hq (Nat.not_lt.mpr h)

/-- `x` shifted by as many bits as are counted. -/
structure Shifted (x : Nat) (lo : Nat) (p : Nat × BitVec 32) : Prop where
  value : p.2.toNat = x * 2 ^ p.1
  lower : 2 ^ lo ≤ p.2.toNat

theorem nlzStep_shifted {x lo k : Nat} {b : BitVec 32} {p : Nat × BitVec 32}
    (h : Shifted x lo p) (hb : b.toNat + 1 = 2 ^ (32 - k)) (hk : k ≤ 32)
    (hlo : 32 - k ≤ lo + k) : Shifted x (32 - k) (nlzStep k b p) := by
  unfold nlzStep
  by_cases hle : p.2 ≤ b
  · rw [if_pos hle]
    have hlt : p.2.toNat * 2 ^ k < 2 ^ 32 := by
      calc p.2.toNat * 2 ^ k < 2 ^ (32 - k) * 2 ^ k :=
            Nat.mul_lt_mul_of_pos_right (hb ▸ Nat.lt_succ_of_le hle) (Nat.two_pow_pos k)
        _ = 2 ^ 32 := by rw [← Nat.pow_add, Nat.sub_add_cancel hk]
    have hval : (p.2 <<< k).toNat = p.2.toNat * 2 ^ k := by
      rw [BitVec.toNat_shiftLeft, Nat.shiftLeft_eq, Nat.mod_eq_of_lt hlt]
    refine ⟨?_, ?_⟩
    · show (p.2 <<< k).toNat = x * 2 ^ (p.1 + k)
      rw [hval, h.value, Nat.pow_add, Nat.mul_assoc]
    · show _ ≤ (p.2 <<< k).toNat
      rw [hval]
      calc 2 ^ (32 - k) ≤ 2 ^ (lo + k) := Nat.pow_le_pow_right (by decide) hlo
        _ = 2 ^ lo * 2 ^ k := Nat.pow_add ..
        _ ≤ p.2.toNat * 2 ^ k := Nat.mul_le_mul_right _ h.lower
  · rw [if_neg hle]
    have hgt : b.toNat < p.2.toNat := Nat.lt_of_not_le hle
    exact ⟨h.value, by omega⟩

/-- **`nlz`** -/
theorem nlz_spec {x : BitVec 32} (hx : x ≠ 0) :
    2 ^ 31 ≤ x.toNat * 2 ^ nlz x ∧ x.toNat * 2 ^ nlz x < 2 ^ 32 := by
  have hpos : 0 < x.toNat := Nat.pos_of_ne_zero fun h => hx (BitVec.eq_of_toNat_eq h)
  have h0 : Shifted x.toNat 0 (0, x) := ⟨(Nat.mul_one _).symm, hpos⟩
  have h1 := nlzStep_shifted (k := 16) (b := 0x0000ffff) h0 (by decide) (by decide) (by decide)
  have h2 := nlzStep_shifted (k := 8) (b := 0x00ffffff) h1 (by decide) (by decide) (by decide)
  have h3 := nlzStep_shifted (k := 4) (b := 0x0fffffff) h2 (by decide) (by decide) (by decide)
  have h4 := nlzStep_shifted (k := 2) (b := 0x3fffffff) h3 (by decide) (by decide) (by decide)
  unfold nlz
  dsimp only
  generalize nlzStep 2 0x3fffffff _ = p at h4
  obtain ⟨hval, hlow⟩ := h4
  have hlt := p.2.isLt
  by_cases hle : p.2 ≤ 0x7fffffff
  · have hle' : p.2.toNat ≤ 0x7fffffff := hle
    have hsucc : x.toNat * 2 ^ (p.1 + 1) = p.2.toNat * 2 := by
      rw [Nat.pow_succ, ← Nat.mul_assoc, ← hval]
    rw [if_pos hle, hsucc]
    omega
  · have hgt : 0x7fffffff < p.2.toNat := Nat.lt_of_not_le hle
    rw [if_neg hle, ← hval]
    omega

theorem nlz_lt {x : BitVec 32} (hx : x ≠ 0) : nlz x < 32 := by
  obtain ⟨-, h⟩ := nlz_spec hx
  have hpos : 0 < x.toNat := Nat.pos_of_ne_zero fun h => hx (BitVec.eq_of_toNat_eq h)
  by_contra hge
  have : 2 ^ 32 ≤ x.toNat * 2 ^ nlz x :=
    (Nat.pow_le_pow_right (by decide) (Nat.not_lt.mp hge)).trans (Nat.le_mul_of_pos_left _ hpos)
  omega

/-! ## The unsigned quotient -/

theorem high_toNat (n : BitVec 64) : (n >>> 32).toNat = n.toNat / 2 ^ 32 := by
  rw [BitVec.toNat_ushiftRight, Nat.shiftRight_eq_div_pow]

theorem high32_toNat (n : BitVec 64) : ((n >>> 32).setWidth 32).toNat = n.toNat / 2 ^ 32 := by
  rw [BitVec.toNat_setWidth, high_toNat, Nat.mod_eq_of_lt]
  have := n.isLt
  omega

theorem low32_toNat (n : BitVec 64) : (n.setWidth 32).toNat = n.toNat % 2 ^ 32 := BitVec.toNat_setWidth ..

/-- Two digits in one number. -/
theorem digits_toNat (hi lo : BitVec 32) :
    ((1#64 <<< 32) * hi.setWidth 64 + lo.setWidth 64).toNat = 2 ^ 32 * hi.toNat + lo.toNat := by
  have h1 := hi.isLt
  have h2 := lo.isLt
  have hb : (1#64 <<< 32).toNat = 2 ^ 32 := by decide
  rw [BitVec.toNat_add, BitVec.toNat_mul, hb, BitVec.toNat_setWidth, BitVec.toNat_setWidth]
  omega

theorem udiv64_short {n d : BitVec 64} (hd : d ≠ 0) (hs : d >>> 32 = 0) :
    ∃ q, udiv64 n d = .ok q ∧ q.toNat = n.toNat / d.toNat := by
  have hpos : 0 < d.toNat := Nat.pos_of_ne_zero fun h => hd (BitVec.eq_of_toNat_eq h)
  have hlt : d.toNat < 2 ^ 32 := by
    have h0 := high_toNat d
    rw [hs] at h0
    exact (Nat.div_eq_zero_iff_lt (Nat.two_pow_pos 32)).mp h0.symm
  have hd0 : (d.setWidth 32).toNat = d.toNat := by rw [low32_toNat, Nat.mod_eq_of_lt hlt]
  have hd0' : d.setWidth 32 ≠ 0 := fun h => by
    rw [h] at hd0
    exact Nat.ne_of_lt hpos hd0
  have hnum := digits_toNat ((n >>> 32).setWidth 32 % d.setWidth 32) (n.setWidth 32)
  rw [BitVec.toNat_umod, high32_toNat, hd0, low32_toNat] at hnum
  have hfit : (2 ^ 32 * (n.toNat / 2 ^ 32 % d.toNat) + n.toNat % 2 ^ 32) / d.toNat < 2 ^ 32 :=
    shortDivision_lt hpos (Nat.mod_lt n.toNat (Nat.two_pow_pos 32))
  obtain ⟨q, hq, hval⟩ := divl_ok hd0' (by rw [hnum, hd0]; exact hfit)
  rw [hnum, hd0] at hval
  refine ⟨q.setWidth 64 + (1#64 <<< 32) * ((n >>> 32).setWidth 32 / d.setWidth 32).setWidth 64, ?_, ?_⟩
  · rw [udiv64, if_pos hs]
    dsimp only
    rw [hq]
    rfl
  · rw [BitVec.add_comm, digits_toNat, BitVec.toNat_udiv, high32_toNat, hd0, hval,
      ← shortDivision hpos, Nat.div_add_mod]

/-- A divisor whose leading digit is shifted to the left end. -/
theorem normalized_bounds {d s : Nat} (hs : s < 32) (hlow : 2 ^ 31 ≤ d / 2 ^ 32 * 2 ^ s)
    (hhigh : d / 2 ^ 32 * 2 ^ s < 2 ^ 32) : 2 ^ 63 ≤ d * 2 ^ s ∧ d * 2 ^ s < 2 ^ 64 := by
  have hpow : 2 ^ 32 = 2 ^ (32 - s) * 2 ^ s := by
    rw [← Nat.pow_add, Nat.sub_add_cancel (Nat.le_of_lt hs)]
  have hdigit : d / 2 ^ 32 < 2 ^ (32 - s) := by
    apply Nat.lt_of_mul_lt_mul_right (a := 2 ^ s)
    rwa [← hpow]
  have hd : d < 2 ^ (32 - s) * 2 ^ 32 := (Nat.div_lt_iff_lt_mul (Nat.two_pow_pos 32)).mp hdigit
  constructor
  · calc 2 ^ 63 = 2 ^ 31 * 2 ^ 32 := by rw [← Nat.pow_add]
      _ ≤ d / 2 ^ 32 * 2 ^ s * 2 ^ 32 := Nat.mul_le_mul_right _ hlow
      _ = d / 2 ^ 32 * 2 ^ 32 * 2 ^ s := Nat.mul_right_comm _ _ _
      _ ≤ d * 2 ^ s := Nat.mul_le_mul_right _ (Nat.div_mul_le_self d _)
  · calc d * 2 ^ s < 2 ^ (32 - s) * 2 ^ 32 * 2 ^ s := Nat.mul_lt_mul_of_pos_right hd (Nat.two_pow_pos s)
      _ = 2 ^ (32 - s) * 2 ^ s * 2 ^ 32 := Nat.mul_right_comm _ _ _
      _ = 2 ^ 64 := by rw [← hpow, ← Nat.pow_add]

/-- The estimate is corrected by the remainder it leaves. -/
theorem corrected_toNat {n d q : BitVec 64} (hd : 0 < d.toNat) (hle : d.toNat ≤ n.toNat)
    (h1 : n.toNat / d.toNat ≤ q.toNat) (h2 : q.toNat ≤ n.toNat / d.toNat + 1) :
    (if n - (q - 1) * d < d then q - 1 else q).toNat = n.toNat / d.toNat := by
  have hn := n.isLt
  have hk : 1 ≤ n.toNat / d.toNat := (Nat.one_le_div_iff hd).mpr hle
  have hq1 : (q - 1).toNat = q.toNat - 1 := BitVec.toNat_sub_of_le (by
    show (1 : Nat) ≤ q.toNat
    omega)
  have hprod : (q.toNat - 1) * d.toNat ≤ n.toNat := by
    refine (Nat.mul_le_mul_right d.toNat ?_).trans (Nat.div_mul_le_self n.toNat d.toNat)
    omega
  have hmul : ((q - 1) * d).toNat = (q.toNat - 1) * d.toNat := by
    rw [BitVec.toNat_mul, hq1, Nat.mod_eq_of_lt (Nat.lt_of_le_of_lt hprod hn)]
  have hrem : (n - (q - 1) * d).toNat = n.toNat - (q.toNat - 1) * d.toNat := by
    rw [BitVec.toNat_sub_of_le (by show _ ≤ n.toNat; rwa [hmul]), hmul]
  have hdm := Nat.div_add_mod n.toNat d.toNat
  have hmod := Nat.mod_lt n.toNat hd
  rw [Nat.mul_comm] at hdm
  rcases Nat.eq_or_lt_of_le h1 with heq | hlt
  · -- the estimate is exact: what `q - 1` leaves is `d` or more
    have hprev : (q.toNat - 1) * d.toNat + d.toNat = n.toNat / d.toNat * d.toNat := by
      rw [heq, ← Nat.succ_mul, Nat.succ_eq_add_one, Nat.sub_add_cancel (by omega)]
    rw [if_neg, heq]
    show ¬ (n - (q - 1) * d).toNat < d.toNat
    omega
  · have hq : q.toNat - 1 = n.toNat / d.toNat := by omega
    rw [if_pos, hq1, hq]
    show (n - (q - 1) * d).toNat < d.toNat
    rw [hrem, hq]
    omega

theorem udiv64_long {n d : BitVec 64} (hs : d >>> 32 ≠ 0) :
    ∃ q, udiv64 n d = .ok q ∧ q.toNat = n.toNat / d.toNat := by
  by_cases hlt : n < d
  · refine ⟨0, ?_, ?_⟩
    · rw [udiv64, if_neg hs, if_pos hlt]
      rfl
    · exact (Nat.div_eq_of_lt hlt).symm
  have hle : d.toNat ≤ n.toNat := Nat.not_lt.mp hlt
  have hn := n.isLt
  have hd1 : (d >>> 32).setWidth 32 ≠ 0 := fun h => hs (BitVec.eq_of_toNat_eq (by
    rw [high_toNat, ← high32_toNat, h]
    rfl))
  have hslt := nlz_lt hd1
  obtain ⟨hlow, hhigh⟩ := nlz_spec hd1
  rw [high32_toNat] at hlow hhigh
  generalize hnlz : nlz ((d >>> 32).setWidth 32) = s at *
  obtain ⟨hnlow, hnhigh⟩ := normalized_bounds hslt hlow hhigh
  have hv : (((d <<< s) >>> 32).setWidth 32).toNat = d.toNat * 2 ^ s / 2 ^ 32 := by
    rw [high32_toNat, BitVec.toNat_shiftLeft, Nat.shiftLeft_eq, Nat.mod_eq_of_lt hnhigh]
  have hv0 : ((d <<< s) >>> 32).setWidth 32 ≠ 0 := fun h => by
    rw [h] at hv
    have hz : d.toNat * 2 ^ s / 2 ^ 32 = 0 := hv.symm
    omega
  have hpos : 0 < d.toNat := by
    rcases Nat.eq_zero_or_pos d.toNat with h0 | h0
    · rw [h0, Nat.zero_mul] at hnlow
      omega
    · exact h0
  have hfit := estimate_fits (w := 32) hnlow hn (by decide)
  obtain ⟨h1, h2⟩ := estimate_quotient (w := 32) hslt hnlow hn
  have hhalf : (n >>> 1).toNat = n.toNat / 2 := by
    rw [BitVec.toNat_ushiftRight, Nat.shiftRight_eq_div_pow]
  obtain ⟨q, hq, hval⟩ := divl_ok (n := n >>> 1) (d := ((d <<< s) >>> 32).setWidth 32)
    hv0 (by rw [hhalf, hv]; exact hfit)
  rw [hhalf, hv] at hval
  have hest : ((q >>> (31 - s)).setWidth 64 : BitVec 64).toNat =
      n.toNat / 2 / (d.toNat * 2 ^ s / 2 ^ 32) / 2 ^ (31 - s) := by
    have hq32 := (q >>> (31 - s)).isLt
    rw [BitVec.toNat_setWidth, Nat.mod_eq_of_lt (by omega), BitVec.toNat_ushiftRight,
      Nat.shiftRight_eq_div_pow, hval]
  refine ⟨_, ?_, corrected_toNat (q := (q >>> (31 - s)).setWidth 64) hpos hle (by rwa [hest]) (by rwa [hest])⟩
  rw [udiv64, if_neg hs, if_neg hlt]
  dsimp only
  rw [hnlz, hq]
  rfl

/-- **`udiv64`** -/
theorem udiv64_spec (n : BitVec 64) {d : BitVec 64} (hd : d ≠ 0) :
    ∃ q, udiv64 n d = .ok q ∧ q.toNat = n.toNat / d.toNat := by
  by_cases hs : d >>> 32 = 0
  · exact udiv64_short hd hs
  · exact udiv64_long hs

/-! ## The signed quotient -/

theorem abs64_toNat (n : BitVec 64) : (abs64 n).toNat = n.toInt.natAbs := by
  have hn := n.isLt
  have hint := BitVec.toInt_eq_toNat_cond n
  unfold abs64
  split at hint <;> rw [hint]
  · rw [if_pos (by omega)]
    omega
  · rw [if_neg (by omega), BitVec.toNat_neg]
    omega

theorem toInt_bounds (n : BitVec 64) : -2 ^ 63 ≤ n.toInt ∧ n.toInt < 2 ^ 63 :=
  ⟨BitVec.le_toInt n, BitVec.toInt_lt⟩

/-- The quotient of the absolute values, with its sign. -/
theorem tdiv_of_abs (n d : Int) : n.tdiv d =
    if decide (n < 0) = decide (d < 0) then ((n.natAbs / d.natAbs : Nat) : Int)
    else -((n.natAbs / d.natAbs : Nat) : Int) := by
  have hpos : ∀ a : Nat, decide ((Int.ofNat a) < 0) = false := fun a =>
    decide_eq_false (Int.not_lt.mpr (Int.natCast_nonneg a))
  have hneg : ∀ a : Nat, decide ((Int.negSucc a) < 0) = true := fun a =>
    decide_eq_true (Int.negSucc_lt_zero a)
  cases n <;> cases d <;> simp only [hpos, hneg] <;> rfl

/-- The signed quotient is in range but for one pair. -/
def Representable (n d : BitVec 64) : Prop := ¬ (n.toInt = -2 ^ 63 ∧ d.toInt = -1)

theorem toInt_of_toNat_lt {q : BitVec 64} (h : q.toNat < 2 ^ 63) : q.toInt = q.toNat := by
  rw [BitVec.toInt_eq_toNat_cond, if_pos (by omega)]

theorem toInt_neg_of_toNat_le {q : BitVec 64} (h : q.toNat ≤ 2 ^ 63) : (-q).toInt = -(q.toNat : Int) := by
  rw [BitVec.toInt_eq_toNat_cond, BitVec.toNat_neg]
  split <;> omega

/-- **`sdiv64`** -/
theorem sdiv64_spec {n d : BitVec 64} (hd : d ≠ 0) (hr : Representable n d) :
    ∃ q, sdiv64 n d = .ok q ∧ q.toInt = n.toInt.tdiv d.toInt := by
  have hd0 : d.toInt ≠ 0 := fun h => hd (BitVec.eq_of_toInt_eq h)
  have habs : abs64 d ≠ 0 := fun h => by
    have hnat := abs64_toNat d
    rw [h] at hnat
    exact hd0 (Int.natAbs_eq_zero.mp hnat.symm)
  obtain ⟨q, hq, hval⟩ := udiv64_spec (abs64 n) habs
  rw [abs64_toNat, abs64_toNat] at hval
  obtain ⟨hn1, hn2⟩ := toInt_bounds n
  have hle : n.toInt.natAbs / d.toInt.natAbs ≤ n.toInt.natAbs := Nat.div_le_self ..
  refine ⟨_, by rw [sdiv64, hq]; rfl, ?_⟩
  rw [tdiv_of_abs]
  by_cases hs : decide (n.toInt < 0) = decide (d.toInt < 0)
  · rw [if_pos hs, if_pos hs, ← hval]
    apply toInt_of_toNat_lt
    rw [hval]
    -- only `-2 ^ 63 / -1` is as large as `2 ^ 63`
    by_contra hge
    have hone : d.toInt.natAbs = 1 := by
      by_contra hne
      have h2 : n.toInt.natAbs / d.toInt.natAbs ≤ n.toInt.natAbs / 2 :=
        Nat.div_le_div_left (by omega) (by decide)
      omega
    rw [hone, Nat.div_one] at hge
    have hneg : n.toInt < 0 := by omega
    rw [decide_eq_true hneg] at hs
    have hdneg := of_decide_eq_true hs.symm
    exact hr ⟨by omega, by omega⟩
  · rw [if_neg hs, if_neg hs, ← hval]
    exact toInt_neg_of_toNat_le (by omega)

/-- **64-bit division** is exact and never traps. -/
theorem division_exact :
    (∀ n d : BitVec 64, d ≠ 0 → ∃ q, udivdi3 n d = .ok q ∧ q.toNat = n.toNat / d.toNat) ∧
      ∀ n d : BitVec 64, d ≠ 0 → Representable n d →
        ∃ q, divdi3 n d = .ok q ∧ q.toInt = n.toInt.tdiv d.toInt :=
  ⟨fun n _ hd => udiv64_spec n hd, fun _ _ hd hr => sdiv64_spec hd hr⟩

/-- A divisor of two digits, and one that is negative. -/
theorem division_exact_run :
    (∃ q, udivdi3 0xffffffffffffffff 0x100000001 = .ok q ∧
      q.toNat = (0xffffffffffffffff : BitVec 64).toNat / (0x100000001 : BitVec 64).toNat) ∧
    ∃ q, divdi3 7 (-2) = .ok q ∧ q.toInt = (7 : BitVec 64).toInt.tdiv (-2 : BitVec 64).toInt :=
  ⟨division_exact.1 _ _ (by decide), division_exact.2 _ _ (by decide) fun h => absurd h.2 (by decide)⟩

/-! ## Remainders -/

/-- The remainder before it is cut to 32 bits. -/
theorem remainder_toNat {n d q : BitVec 64} (hq : q.toNat = n.toNat / d.toNat) :
    (n - d * q).toNat = n.toNat % d.toNat := by
  have hdm := Nat.div_add_mod n.toNat d.toNat
  have hmul : (d * q).toNat = d.toNat * (n.toNat / d.toNat) := by
    rw [BitVec.toNat_mul, hq, Nat.mod_eq_of_lt]
    have := n.isLt
    omega
  rw [BitVec.toNat_sub_of_le (by show _ ≤ n.toNat; omega), hmul]
  omega

theorem tmod_nonpos {a : Int} (b : Int) (h : a ≤ 0) : a.tmod b ≤ 0 := by
  have hneg := Int.tmod_nonneg b (Int.neg_nonneg_of_nonpos h)
  rw [Int.neg_tmod] at hneg
  omega

theorem tmod_bounds (n d : BitVec 64) :
    -2 ^ 63 ≤ n.toInt.tmod d.toInt ∧ n.toInt.tmod d.toInt < 2 ^ 63 := by
  obtain ⟨h1, h2⟩ := toInt_bounds n
  have hle : (n.toInt.tmod d.toInt).natAbs ≤ n.toInt.natAbs := by
    rw [Int.natAbs_tmod]
    exact Nat.mod_le ..
  by_cases hneg : n.toInt < 0
  · have := tmod_nonpos d.toInt (Int.le_of_lt hneg)
    omega
  · have := Int.tmod_nonneg d.toInt (Int.not_lt.mp hneg)
    omega

theorem remainder_toInt {n d q : BitVec 64} (hq : q.toInt = n.toInt.tdiv d.toInt) :
    (n - d * q).toInt = n.toInt.tmod d.toInt := by
  obtain ⟨h1, h2⟩ := tmod_bounds n d
  rw [BitVec.toInt_sub, BitVec.toInt_mul, hq, Int.sub_bmod_bmod, ← Int.tmod_def]
  exact Int.bmod_eq_of_le_mul_two (by omega) (by omega)

/-- Quotient and remainder of `n` by `d` as unsigned numbers. -/
structure Divides (n d q r : BitVec 64) : Prop where
  value : n.toNat = d.toNat * q.toNat + r.toNat
  lt : r.toNat < d.toNat

/-- Quotient and remainder of `n` by `d` as signed numbers. -/
structure DividesSigned (n d q r : BitVec 64) : Prop where
  value : n.toInt = d.toInt * q.toInt + r.toInt
  lt : r.toInt.natAbs < d.toInt.natAbs
  sign : r.toInt = 0 ∨ (r.toInt < 0 ↔ n.toInt < 0)

theorem umoddi3_spec (n : BitVec 64) {d : BitVec 64} (hd : d ≠ 0) :
    ∃ r, umoddi3 n d = .ok r ∧ r.toNat = n.toNat % d.toNat % 2 ^ 32 := by
  obtain ⟨q, hq, hval⟩ := udiv64_spec n hd
  refine ⟨((n - d * q).setWidth 32).setWidth 64, by rw [umoddi3, umod64, hq]; rfl, ?_⟩
  have hlt := ((n - d * q).setWidth 32).isLt
  rw [BitVec.toNat_setWidth, Nat.mod_eq_of_lt (by omega), BitVec.toNat_setWidth, remainder_toNat hval]

theorem moddi3_spec {n d : BitVec 64} (hd : d ≠ 0) (hr : Representable n d) :
    ∃ r, moddi3 n d = .ok r ∧ r.toInt = (n.toInt.tmod d.toInt).bmod (2 ^ 32) := by
  obtain ⟨q, hq, hval⟩ := sdiv64_spec hd hr
  refine ⟨((n - d * q).setWidth 32).signExtend 64, by rw [moddi3, smod64, hq]; rfl, ?_⟩
  rw [BitVec.toInt_signExtend_of_le (by decide), BitVec.toInt_setWidth, ← remainder_toInt hval,
    BitVec.toInt_eq_toNat_bmod, Int.bmod_bmod_of_dvd (by decide)]

/-- **64-bit remainder** is right exactly where it fits in the 32 bits that `umod64` and `smod64`
return. -/
theorem remainder_iff (n d : BitVec 64) (hd : d ≠ 0) :
    ((∃ q r, udivdi3 n d = .ok q ∧ umoddi3 n d = .ok r ∧ Divides n d q r) ↔
      n.toNat % d.toNat < 2 ^ 32) ∧
    (Representable n d →
      ((∃ q r, divdi3 n d = .ok q ∧ moddi3 n d = .ok r ∧ DividesSigned n d q r) ↔
        -2 ^ 31 ≤ n.toInt.tmod d.toInt ∧ n.toInt.tmod d.toInt < 2 ^ 31)) := by
  refine ⟨?_, fun hr => ?_⟩
  · obtain ⟨q, hq, hqval⟩ := udiv64_spec n hd
    obtain ⟨r, hr, hrval⟩ := umoddi3_spec n hd
    have hdm := Nat.div_add_mod n.toNat d.toNat
    have hpos : 0 < d.toNat := Nat.pos_of_ne_zero fun h => hd (BitVec.eq_of_toNat_eq h)
    have hmod := Nat.mod_lt n.toNat hpos
    constructor
    · rintro ⟨q', r', hq', hr', hdiv⟩
      obtain rfl : q = q' := Except.ok.inj (hq.symm.trans hq')
      obtain rfl : r = r' := Except.ok.inj (hr.symm.trans hr')
      have hval := hdiv.value
      rw [hqval] at hval
      have hlt := Nat.mod_lt (n.toNat % d.toNat) (Nat.two_pow_pos 32)
      omega
    · intro hlt
      rw [Nat.mod_eq_of_lt hlt] at hrval
      exact ⟨q, r, hq, hr, by rw [hqval, hrval, hdm], by rw [hrval]; exact hmod⟩
  · obtain ⟨q, hq, hqval⟩ := sdiv64_spec hd hr
    obtain ⟨r, hr, hrval⟩ := moddi3_spec hd hr
    have hdm := Int.mul_tdiv_add_tmod n.toInt d.toInt
    have hd0 : d.toInt ≠ 0 := fun h => hd (BitVec.eq_of_toInt_eq h)
    constructor
    · rintro ⟨q', r', hq', hr', hdiv⟩
      obtain rfl : q = q' := Except.ok.inj (hq.symm.trans hq')
      obtain rfl : r = r' := Except.ok.inj (hr.symm.trans hr')
      have hval := hdiv.value
      rw [hqval] at hval
      have hlow := Int.le_bmod (x := n.toInt.tmod d.toInt) (m := 2 ^ 32) (by decide)
      have hhigh := Int.bmod_lt (x := n.toInt.tmod d.toInt) (m := 2 ^ 32) (by decide)
      omega
    · rintro ⟨hlow, hhigh⟩
      rw [Int.bmod_eq_of_le_mul_two (by omega) (by omega)] at hrval
      refine ⟨q, r, hq, hr, by rw [hqval, hrval, hdm], ?_, ?_⟩
      · rw [hrval, Int.natAbs_tmod]
        exact Nat.mod_lt _ (Int.natAbs_pos.mpr hd0)
      · rw [hrval]
        by_cases hneg : n.toInt < 0
        · have := tmod_nonpos d.toInt (Int.le_of_lt hneg)
          omega
        · have := Int.tmod_nonneg d.toInt (Int.not_lt.mp hneg)
          omega

/-- Small operands, with either sign. -/
theorem remainder_iff_run :
    ((∃ q r, udivdi3 7 2 = .ok q ∧ umoddi3 7 2 = .ok r ∧ Divides 7 2 q r) ↔
      (7 : BitVec 64).toNat % (2 : BitVec 64).toNat < 2 ^ 32) ∧
    ((∃ q r, divdi3 (-7) 2 = .ok q ∧ moddi3 (-7) 2 = .ok r ∧ DividesSigned (-7) 2 q r) ↔
      -2 ^ 31 ≤ (-7 : BitVec 64).toInt.tmod (2 : BitVec 64).toInt ∧
        (-7 : BitVec 64).toInt.tmod (2 : BitVec 64).toInt < 2 ^ 31) :=
  ⟨(remainder_iff 7 2 (by decide)).1,
    (remainder_iff (-7) 2 (by decide)).2 fun h => absurd h.2 (by decide)⟩

/-- `2 ^ 32` by `2 ^ 33` leaves itself, and its low word is `0`. -/
theorem remainder_cut :
    ¬ ((∀ n d : BitVec 64, d ≠ 0 →
        ∃ q r, udivdi3 n d = .ok q ∧ umoddi3 n d = .ok r ∧ Divides n d q r) ∧
      ∀ n d : BitVec 64, d ≠ 0 → Representable n d →
        ∃ q r, divdi3 n d = .ok q ∧ moddi3 n d = .ok r ∧ DividesSigned n d q r) := by
  rintro ⟨h, -⟩
  obtain ⟨q, r, hq, hr, hdiv⟩ := h 0x100000000 0x200000000 (by decide)
  have hq0 : udivdi3 0x100000000 0x200000000 = .ok 0 := by decide
  have hr0 : umoddi3 0x100000000 0x200000000 = .ok 0 := by decide
  obtain rfl : 0 = q := Except.ok.inj (hq0.symm.trans hq)
  obtain rfl : 0 = r := Except.ok.inj (hr0.symm.trans hr)
  exact absurd hdiv.value (by decide)

end Pintos.Lib
