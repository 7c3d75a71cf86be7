import Mathlib.Data.Nat.Bitwise
import Mathlib.Data.Nat.Log
import Mathlib.Data.Nat.Size
import Mathlib.Tactic.Common

/-!
# The calibration of busy waiting (devices/timer.c)

`timer_calibrate` looks for the number of loops that fit into a timer tick: first the leading
bit, then the nine bits below it. `too_many_loops` is a parameter, true above a threshold. Each
refined bit is tried with the leading bit alone, so the bits accepted before it do not count.
-/

namespace Pintos.Devices.Calibrate

inductive Stop where
  /-- `ASSERT (loops_per_tick != 0)` fails. -/
  | assertion
  | fuel
  deriving DecidableEq, Repr

section

variable (tooManyLoops : Nat → Bool)

/-- The loop that doubles `loops_per_tick`. -/
def double : Nat → Nat → Except Stop Nat
  | 0, _ => .error .fuel
  | fuel + 1, loopsPerTick =>
    if tooManyLoops ((loopsPerTick <<< 1) % 2 ^ 32) then .ok loopsPerTick
    else if (loopsPerTick <<< 1) % 2 ^ 32 = 0 then .error .assertion
    else double fuel ((loopsPerTick <<< 1) % 2 ^ 32)

/-- The loop over `test_bit`. -/
def refineBits (highBit : Nat) : Nat → Nat → Nat → Except Stop Nat
  | 0, _, _ => .error .fuel
  | fuel + 1, testBit, loopsPerTick =>
    if testBit = highBit >>> 10 then .ok loopsPerTick
    else refineBits highBit fuel (testBit >>> 1)
      (if tooManyLoops (highBit ||| testBit) then loopsPerTick else loopsPerTick ||| testBit)

/-- `timer_calibrate`, with a bound on the rounds of each loop. -/
def timerCalibrate (fuel : Nat) : Except Stop Nat := do
  let highBit ← double tooManyLoops fuel (1 <<< 10)
  refineBits tooManyLoops highBit fuel (highBit >>> 1) highBit

/-- The function returns `n`. -/
def Returns (n : Nat) : Prop := ∃ rounds, ∀ fuel ≥ rounds, timerCalibrate tooManyLoops fuel = .ok n

end

/-- The set bits of `n` are its leading bit and some of the nine below. -/
def Refined (n : Nat) : Prop := 0 < n ∧ ∀ i, n.testBit i = true → Nat.log 2 n ≤ i + 9

/-- **What the calibration is for**: it returns the largest refined value up to the threshold. -/
def Calibrated (tooManyLoops : Nat → Bool) (threshold : Nat) : Prop :=
  ∃ n, Returns tooManyLoops n ∧ n ≤ threshold ∧ Refined n ∧
    ∀ w ≤ threshold, Refined w → w ≤ n

/-! ## The loops -/

section

variable {tooManyLoops : Nat → Bool} {threshold k : Nat}

theorem double_run (hT : ∀ n < 2 ^ 32, tooManyLoops n = decide (threshold < n))
    (hk : 2 ^ k ≤ threshold) (hk' : threshold < 2 ^ (k + 1)) (h31 : k < 31) :
    ∀ fuel j, j ≤ k → k - j < fuel → double tooManyLoops fuel (2 ^ j) = .ok (2 ^ k)
  | 0, _, _, hf => absurd hf (Nat.not_lt_zero _)
  | fuel + 1, j, hj, hf => by
    have hlt : 2 ^ (j + 1) < 2 ^ 32 := Nat.pow_lt_pow_right (by decide) (by omega)
    have hshift : 2 ^ j <<< 1 % 2 ^ 32 = 2 ^ (j + 1) := by
      rw [Nat.shiftLeft_eq, pow_one, ← pow_succ, Nat.mod_eq_of_lt hlt]
    rw [double, hshift, hT _ hlt]
    by_cases hjk : j = k
    · subst hjk
      rw [if_pos (decide_eq_true hk')]
    · have hle : 2 ^ (j + 1) ≤ threshold :=
        (Nat.pow_le_pow_right (by decide) (by omega)).trans hk
      rw [if_neg (by simpa using hle), if_neg (Nat.two_pow_pos _).ne']
      exact double_run hT hk hk' h31 fuel (j + 1) (by omega) (by omega)

/-- The sum with a bit below all others. -/
theorem or_bit {a i : Nat} (h : 2 ^ (i + 1) ∣ a) : a ||| 2 ^ i = a + 2 ^ i := by
  obtain ⟨c, rfl⟩ := h
  exact (Nat.two_pow_add_eq_or_of_lt (Nat.pow_lt_pow_right (by decide) (Nat.lt_succ_self i)) c).symm

/-- What has been accepted before bit `i` is tried: all bits below `s`. -/
def accepted (k s i : Nat) : Nat := 2 ^ k + (2 ^ s - 2 ^ (i + 1))

theorem accepted_dvd {s i : Nat} (hi : i < k) : 2 ^ (i + 1) ∣ accepted k s i := by
  apply Nat.dvd_add (Nat.pow_dvd_pow 2 hi)
  rcases Nat.le_total (i + 1) s with h | h
  · exact Nat.dvd_sub (Nat.pow_dvd_pow 2 h) dvd_rfl
  · rw [Nat.sub_eq_zero_of_le (Nat.pow_le_pow_right (by decide) h)]
    exact Nat.dvd_zero _

theorem accepted_step {s i : Nat} (hi : i + 1 < k) :
    (if i + 1 < s then accepted k s (i + 1) ||| 2 ^ (i + 1) else accepted k s (i + 1)) =
      accepted k s i := by
  rw [or_bit (accepted_dvd hi)]
  unfold accepted
  have hpow : 2 ^ (i + 1 + 1) = 2 * 2 ^ (i + 1) := pow_succ' ..
  split
  · next h =>
    have hle : 2 ^ (i + 1 + 1) ≤ 2 ^ s := Nat.pow_le_pow_right (by decide) h
    omega
  · next h =>
    have hle : 2 ^ s ≤ 2 ^ (i + 1) := Nat.pow_le_pow_right (by decide) (by omega)
    omega

theorem pow_shiftRight (a b : Nat) : 2 ^ (a + b) >>> b = 2 ^ a := by
  rw [Nat.shiftRight_eq_div_pow, pow_add, Nat.mul_div_cancel _ (Nat.two_pow_pos b)]

/-- Every test is on the leading bit and one other bit. -/
theorem tooManyLoops_bit {i : Nat} (hT : ∀ n < 2 ^ 32, tooManyLoops n = decide (threshold < n))
    (hk : 2 ^ k ≤ threshold) (h31 : k < 31) (hi : i < k) :
    tooManyLoops (2 ^ k ||| 2 ^ i) = true ↔ ¬ i < (threshold - 2 ^ k).size := by
  have h1 : 2 ^ k < 2 ^ 31 := Nat.pow_lt_pow_right (by decide) h31
  have h2 : 2 ^ i < 2 ^ k := Nat.pow_lt_pow_right (by decide) hi
  rw [or_bit (Nat.pow_dvd_pow 2 hi), hT _ (by omega), decide_eq_true_iff, Nat.lt_size]
  omega

theorem refineBits_run {d : Nat} (hT : ∀ n < 2 ^ 32, tooManyLoops n = decide (threshold < n))
    (hd : 2 ^ (d + 10) ≤ threshold) (h31 : d + 10 < 31) (m : Nat) (hm : m ≤ 9) :
    ∀ fuel > m, refineBits tooManyLoops (2 ^ (d + 10)) fuel (2 ^ (d + m))
        (accepted (d + 10) (threshold - 2 ^ (d + 10)).size (d + m)) =
      .ok (accepted (d + 10) (threshold - 2 ^ (d + 10)).size d) := by
  induction m with
  | zero =>
    rintro (_ | fuel) hf
    · exact absurd hf (Nat.lt_irrefl 0)
    · rw [refineBits, pow_shiftRight, Nat.add_zero, if_pos rfl]
  | succ m ih =>
    rintro (_ | fuel) hf
    · exact absurd hf (Nat.not_lt_zero _)
    have hne : 2 ^ (d + (m + 1)) ≠ 2 ^ d :=
      (Nat.pow_lt_pow_right (by decide) (by omega)).ne'
    have htest := tooManyLoops_bit (i := d + m + 1) hT hd h31 (by omega)
    have hstep := accepted_step (k := d + 10) (s := (threshold - 2 ^ (d + 10)).size) (i := d + m)
      (by omega)
    rw [refineBits, pow_shiftRight, if_neg hne, ← Nat.add_assoc, pow_shiftRight (d + m) 1,
      ← ih (by omega) fuel (by omega), ← hstep]
    by_cases h : d + m + 1 < (threshold - 2 ^ (d + 10)).size
    · rw [if_pos h, if_neg fun h' => htest.mp h' h]
    · rw [if_neg h, if_pos (htest.mpr h)]

/-- **What the function returns**: with the leading bit all bits below the leading bit of the
rest. -/
theorem timerCalibrate_returns {d : Nat}
    (hT : ∀ n < 2 ^ 32, tooManyLoops n = decide (threshold < n))
    (hd : 2 ^ (d + 10) ≤ threshold) (hd' : threshold < 2 ^ (d + 11)) (h31 : d + 10 < 31) :
    Returns tooManyLoops (accepted (d + 10) (threshold - 2 ^ (d + 10)).size d) := by
  refine ⟨32, fun fuel hf => ?_⟩
  have hfirst := double_run hT hd hd' h31 fuel 10 (by omega) (by omega)
  have hsize : (threshold - 2 ^ (d + 10)).size ≤ d + 10 := by
    rw [Nat.size_le]
    have : 2 ^ (d + 11) = 2 * 2 ^ (d + 10) := pow_succ' ..
    omega
  have hstart : accepted (d + 10) (threshold - 2 ^ (d + 10)).size (d + 9) = 2 ^ (d + 10) := by
    rw [accepted, Nat.sub_eq_zero_of_le (Nat.pow_le_pow_right (by decide) hsize)]
    rfl
  have hrun := refineBits_run hT hd h31 9 (by omega) fuel (by omega)
  rw [hstart] at hrun
  unfold timerCalibrate
  rw [show 1 <<< 10 = 2 ^ 10 from rfl, hfirst]
  show refineBits tooManyLoops (2 ^ (d + 9 + 1)) fuel (2 ^ (d + 9 + 1) >>> 1) _ = _
  rw [pow_shiftRight]
  exact hrun

theorem Returns.unique {m n : Nat} (h : Returns tooManyLoops m) (h' : Returns tooManyLoops n) :
    m = n := by
  obtain ⟨r, hr⟩ := h
  obtain ⟨r', hr'⟩ := h'
  have he := (hr (max r r') (Nat.le_max_left ..)).symm.trans (hr' _ (Nat.le_max_right ..))
  exact Except.ok.inj he

/-! ## The refined values -/

/-- The bits of a refined value are multiples of the last refined one. -/
theorem Refined.dvd {n d : Nat} (h : Refined n) (hd : Nat.log 2 n = d + 10) : 2 ^ (d + 1) ∣ n := by
  refine Nat.dvd_of_mod_eq_zero (Nat.zero_of_testBit_eq_false fun i => ?_)
  rw [Nat.testBit_mod_two_pow]
  by_cases hi : i < d + 1
  · have hno : n.testBit i ≠ true := fun hb => by
      have := h.2 i hb
      omega
    rw [Bool.eq_false_of_not_eq_true hno, Bool.and_false]
  · rw [decide_eq_false hi, Bool.false_and]

theorem refined_of_dvd {n d : Nat} (h : 2 ^ (d + 1) ∣ n) (hd : Nat.log 2 n = d + 10) : Refined n := by
  refine ⟨Nat.pos_of_ne_zero ?_, fun i hi => ?_⟩
  · rintro rfl
    rw [Nat.log_zero_right] at hd
    omega
  · obtain ⟨c, rfl⟩ := h
    rw [Nat.testBit_two_pow_mul, Bool.and_eq_true, decide_eq_true_iff] at hi
    omega

/-- The largest refined value cuts the lower bits off. -/
theorem refined_le {d w : Nat} (hd : 2 ^ (d + 10) ≤ threshold) (hd' : threshold < 2 ^ (d + 11))
    (hw : Refined w) (hle : w ≤ threshold) : w ≤ 2 ^ (d + 1) * (threshold / 2 ^ (d + 1)) := by
  have h0 : w ≠ 0 := hw.1.ne'
  have hlog : Nat.log 2 w ≤ d + 10 := Nat.lt_succ_iff.mp (Nat.log_lt_of_lt_pow h0 (hle.trans_lt hd'))
  rcases Nat.lt_or_eq_of_le hlog with hlt | heq
  · have hw' : w < 2 ^ (d + 10) := Nat.lt_pow_of_log_lt (by decide) hlt
    have hsplit : 2 ^ (d + 10) = 2 ^ (d + 1) * 2 ^ 9 := by rw [← pow_add]
    have h9 : 2 ^ 9 ≤ threshold / 2 ^ (d + 1) := by
      rw [Nat.le_div_iff_mul_le (Nat.two_pow_pos _), Nat.mul_comm, ← hsplit]
      exact hd
    have := Nat.mul_le_mul_left (2 ^ (d + 1)) h9
    omega
  · obtain ⟨c, rfl⟩ := hw.dvd heq
    apply Nat.mul_le_mul_left _
    rw [Nat.le_div_iff_mul_le (Nat.two_pow_pos _), Nat.mul_comm]
    exact hle

/-- The value accepted is too large, or it is the largest one. -/
theorem accepted_le_iff {d : Nat} (hd : 2 ^ (d + 10) ≤ threshold) :
    (accepted (d + 10) (threshold - 2 ^ (d + 10)).size d ≤ threshold →
        ∃ j, threshold / 2 ^ (d + 1) = 511 + 2 ^ j) ∧
      ∀ j, threshold / 2 ^ (d + 1) = 511 + 2 ^ j →
        accepted (d + 10) (threshold - 2 ^ (d + 10)).size d =
          2 ^ (d + 1) * (threshold / 2 ^ (d + 1)) := by
  have hsplit : 2 ^ (d + 10) = 2 ^ (d + 1) * 512 := pow_add 2 (d + 1) 9
  have hpow : ∀ j, 2 ^ (d + 1 + j) = 2 ^ (d + 1) * 2 ^ j := fun j => pow_add ..
  have hpos : 0 < 2 ^ (d + 1) := Nat.two_pow_pos _
  have hrest := Nat.lt_size_self (threshold - 2 ^ (d + 10))
  unfold accepted
  constructor
  · intro hle
    rcases Nat.le_total (threshold - 2 ^ (d + 10)).size (d + 1) with hs | hs
    · have hsmall : 2 ^ (threshold - 2 ^ (d + 10)).size ≤ 2 ^ (d + 1) :=
        Nat.pow_le_pow_right (by decide) hs
      refine ⟨0, Nat.div_eq_of_lt_le ?_ ?_⟩ <;> omega
    · obtain ⟨j, hj⟩ := Nat.exists_eq_add_of_le hs
      rw [hj, hpow] at hrest hle
      have hone : 2 ^ (d + 1) * 1 ≤ 2 ^ (d + 1) * 2 ^ j := Nat.mul_le_mul_left _ (Nat.two_pow_pos j)
      refine ⟨j, Nat.div_eq_of_lt_le ?_ ?_⟩
      · rw [Nat.mul_comm, Nat.mul_add]
        omega
      · rw [Nat.mul_comm, Nat.mul_succ, Nat.mul_add]
        omega
  · intro j hj
    have hdiv := Nat.div_add_mod threshold (2 ^ (d + 1))
    have hmod := Nat.mod_lt threshold hpos
    rw [hj, Nat.mul_add] at hdiv
    rw [hj, Nat.mul_add]
    have hs : (threshold - 2 ^ (d + 10)).size ≤ d + 1 + j := by
      rw [Nat.size_le, hpow]
      omega
    cases j with
    | zero =>
      have hsmall : 2 ^ (threshold - 2 ^ (d + 10)).size ≤ 2 ^ (d + 1) :=
        Nat.pow_le_pow_right (by decide) hs
      omega
    | succ j =>
      have hbit : 2 ^ (d + 1 + j) ≤ threshold - 2 ^ (d + 10) := by
        have hone : 2 ^ (d + 1) * 1 ≤ 2 ^ (d + 1) * 2 ^ j :=
          Nat.mul_le_mul_left _ (Nat.two_pow_pos j)
        have hdouble : 2 ^ (d + 1) * 2 ^ (j + 1) = 2 * (2 ^ (d + 1) * 2 ^ j) := by
          rw [pow_succ 2 j, ← Nat.mul_assoc, Nat.mul_comm]
        rw [hpow]
        omega
      have heq : (threshold - 2 ^ (d + 10)).size = d + 1 + (j + 1) :=
        le_antisymm hs (Nat.lt_size.mpr hbit)
      rw [heq, hpow, Nat.mul_comm _ (2 ^ (j + 1))]
      have hone : 1 * 2 ^ (d + 1) ≤ 2 ^ (j + 1) * 2 ^ (d + 1) :=
        Nat.mul_le_mul_right _ (Nat.two_pow_pos _)
      omega

/-- **The calibration is right exactly when** the nine bits behind the leading bit of the
threshold are zeros and then ones. -/
theorem calibrate_iff (hT : ∀ n < 2 ^ 32, tooManyLoops n = decide (threshold < n))
    (h10 : 2 ^ 10 ≤ threshold) (h31 : threshold < 2 ^ 31) :
    Calibrated tooManyLoops threshold ↔
      ∃ j, threshold / 2 ^ (Nat.log 2 threshold - 9) = 511 + 2 ^ j := by
  have h0 : threshold ≠ 0 := by omega
  have hlog : 10 ≤ Nat.log 2 threshold := Nat.le_log_of_pow_le (by decide) h10
  obtain ⟨d, hd⟩ := Nat.exists_eq_add_of_le' hlog
  have hlow : 2 ^ (d + 10) ≤ threshold := hd ▸ Nat.pow_log_le_self 2 h0
  have hhigh : threshold < 2 ^ (d + 11) := by
    have := Nat.lt_pow_succ_log_self (b := 2) (by decide) threshold
    rw [hd] at this
    exact this
  have hd31 : d + 10 < 31 := hd ▸ Nat.log_lt_of_lt_pow h0 h31
  obtain ⟨honly, heq⟩ := accepted_le_iff hlow
  have hret := timerCalibrate_returns hT hlow hhigh hd31
  rw [hd, show d + 10 - 9 = d + 1 from rfl]
  constructor
  · rintro ⟨n, hn, hle, -⟩
    rw [hn.unique hret] at hle
    exact honly hle
  · rintro ⟨j, hj⟩
    rw [heq j hj] at hret
    have hle : 2 ^ (d + 1) * (threshold / 2 ^ (d + 1)) ≤ threshold := Nat.mul_div_le ..
    have hge : 2 ^ (d + 10) ≤ 2 ^ (d + 1) * (threshold / 2 ^ (d + 1)) := by
      rw [show 2 ^ (d + 10) = 2 ^ (d + 1) * 512 from pow_add 2 (d + 1) 9]
      have := Nat.two_pow_pos j
      exact Nat.mul_le_mul_left _ (by omega)
    have hsame : Nat.log 2 (2 ^ (d + 1) * (threshold / 2 ^ (d + 1))) = d + 10 :=
      Nat.log_eq_of_pow_le_of_lt_pow hge (hle.trans_lt hhigh)
    exact ⟨_, hret, hle, refined_of_dvd (Nat.dvd_mul_right ..) hsame,
      fun w hw hr => refined_le hlow hhigh hr hw⟩

end

/-- The threshold 2046 has ones in all nine bits. -/
theorem calibrated_ones : Calibrated (fun n => decide (2046 < n)) 2046 := by
  refine (calibrate_iff (fun _ _ => rfl) (by decide) (by decide)).mpr ⟨9, ?_⟩
  rw [show Nat.log 2 2046 = 10 from Nat.log_eq_of_pow_le_of_lt_pow (by decide) (by decide)]
  decide

/-- **Too many loops**: with the threshold 1664 the bits for 256, 64, 32 and so on are accepted,
each of which is too much beside the one for 512. -/
theorem calibrate_exceeds : ¬ Calibrated (fun n => decide (1664 < n)) 1664 := by
  rintro ⟨n, hn, hle, -⟩
  have hret : Returns (fun n => decide (1664 < n)) (accepted (0 + 10) (1664 - 2 ^ (0 + 10)).size 0) :=
    timerCalibrate_returns (fun _ _ => rfl) (by decide) (by decide) (by decide)
  have hsize : (1664 - 2 ^ (0 + 10)).size = 10 :=
    le_antisymm (Nat.size_le.mpr (by decide)) (Nat.lt_size.mpr (by decide))
  rw [hn.unique hret, hsize] at hle
  exact absurd hle (by decide)

end Pintos.Devices.Calibrate
