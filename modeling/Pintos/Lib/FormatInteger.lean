import Pintos.Base.Separated
import Pintos.Lib.Arithmetic
import Pintos.Lib.Stdio
import Mathlib.Data.Nat.Digits.Lemmas

/-!
# What `format_integer` prints

The digits are those of the positional notation, least significant first in the buffer; with the
`'` flag commas stand among them as in `separated`. The buffer never overflows: 22 digits and their
commas leave room, and zeros are appended up to 63 characters only.
-/

namespace Pintos.Lib.Stdio

open Pintos.Base

/-- The bases that conversions use. -/
def IsBase (b : IntegerBase) : Prop := b = baseD ∨ b = baseO ∨ b = baseX ∨ b = baseUpperX

def digitChar (b : IntegerBase) (d : Nat) : Char := b.digits.getD d '\x00'

variable {b : IntegerBase} {c : Conversion} {value : Nat} {buf : Buf}

theorem IsBase.base_ge (h : IsBase b) : 8 ≤ b.base := by
  rcases h with rfl | rfl | rfl | rfl <;> decide

theorem IsBase.group_pos (h : IsBase b) : 0 < b.group := by
  rcases h with rfl | rfl | rfl | rfl <;> decide

/-- The digits of a value with their commas, in the order in which they are written. -/
def marks (b : IntegerBase) (group : Bool) (digitCnt : Nat) (ds : List Nat) : List Char :=
  if group then separated ',' b.group digitCnt (ds.map (digitChar b)) else ds.map (digitChar b)

/-- One digit, with its comma if the loop writes one. -/
theorem marks_cons {group : Bool} {k d : Nat} {ds : List Nat} :
    marks b group k (d :: ds) =
      (if group && decide (0 < k) && k % b.group == 0 then [','] else []) ++
        digitChar b d :: marks b group (k + 1) ds := by
  unfold marks
  cases group with
  | false => rfl
  | true =>
    rw [if_pos rfl, if_pos rfl, List.map_cons, separated]
    by_cases hc : 0 < k ∧ k % b.group = 0
    · rw [if_pos hc, if_pos (by simpa using hc)]
      rfl
    · rw [if_neg hc, if_neg (by simpa using hc)]
      rfl

theorem marks_length_le {group : Bool} {k : Nat} {ds : List Nat} :
    (marks b group k ds).length ≤ 2 * ds.length := by
  unfold marks
  cases group with
  | false =>
    rw [if_neg (by decide), List.length_map]
    omega
  | true =>
    have h : (separated ',' b.group k (ds.map (digitChar b))).length ≤ _ := separated_length_le
    rwa [List.length_map] at h

theorem push_ok {ch : Char} (h : buf.length < 64) : buf.push ch = .ok (ch :: buf) := if_pos h

theorem digitLoop_ok (hb : 2 ≤ b.base) {group : Bool} {n digitCnt : Nat} (hv : value < b.base ^ n)
    (hroom : buf.length + 2 * (Nat.digits b.base value).length ≤ 64) :
    digitLoop b group n value digitCnt buf =
      .ok ((marks b group digitCnt (Nat.digits b.base value)).reverse ++ buf) := by
  induction n generalizing value digitCnt buf with
  | zero =>
    obtain rfl : value = 0 := by
      rw [Nat.pow_zero] at hv
      omega
    rw [digitLoop, if_pos rfl, Nat.digits_zero]
    cases group <;> rfl
  | succ n ih =>
    rw [digitLoop]
    by_cases h0 : value = 0
    · subst h0
      rw [if_pos rfl, Nat.digits_zero]
      cases group <;> rfl
    have hdigits := Nat.digits_def' hb (Nat.pos_of_ne_zero h0)
    rw [hdigits, List.length_cons] at hroom
    have hdiv : value / b.base < b.base ^ n := by
      rw [Nat.div_lt_iff_lt_mul (by omega), ← Nat.pow_succ]
      exact hv
    rw [if_neg h0, hdigits, marks_cons]
    by_cases hc : (group && decide (0 < digitCnt) && digitCnt % b.group == 0) = true
    · -- a comma in front of the digit
      rw [if_pos hc, if_pos hc, push_ok (by omega)]
      show (Buf.push _ _ >>= _) = _
      rw [push_ok (by rw [List.length_cons]; omega)]
      show digitLoop _ _ _ _ _ _ = _
      rw [ih hdiv (by simp only [List.length_cons]; omega)]
      simp [digitChar]
    · rw [if_neg hc, if_neg hc]
      show (Buf.push _ _ >>= _) = _
      rw [push_ok (by omega)]
      show digitLoop _ _ _ _ _ _ = _
      rw [ih hdiv (by simp only [List.length_cons]; omega)]
      simp [digitChar]

theorem zeroLoop_ok {precision : Int} {n : Nat} (hn : 63 ≤ n + buf.length) :
    zeroLoop precision n buf =
      .ok (List.replicate (min precision.toNat 63 - buf.length) '0' ++ buf) := by
  induction n generalizing buf with
  | zero =>
    rw [zeroLoop, if_neg (by omega), show min precision.toNat 63 - buf.length = 0 by omega]
    rfl
  | succ n ih =>
    rw [zeroLoop]
    by_cases hc : (buf.length : Int) < precision ∧ buf.length < 63
    · rw [if_pos hc, push_ok (by omega)]
      show zeroLoop _ _ _ = _
      rw [ih (by rw [List.length_cons]; omega), List.length_cons,
        show min precision.toNat 63 - buf.length = min precision.toNat 63 - (buf.length + 1) + 1 by omega,
        List.replicate_succ']
      simp
    · rw [if_neg hc, show min precision.toNat 63 - buf.length = 0 by omega]
      rfl

/-! ## The whole output -/

/-- The precision that is rendered. -/
def rendered (c : Conversion) : Nat := if c.precision < 0 then 1 else c.precision.toNat

/-- The digits of `value` with their commas, behind the zeros for the precision. -/
def body (b : IntegerBase) (c : Conversion) (value : Nat) : List Char :=
  let ms := marks b c.flags.group 0 (Nat.digits b.base value)
  List.replicate (min (rendered c) 63 - ms.length) '0' ++ ms.reverse

/-- The zero of the `#` flag in base 8. -/
def octal (b : IntegerBase) (c : Conversion) (value : Nat) : List Char :=
  if c.flags.pound && b.base == 8 && (body b c value).head? != some '0' then ['0'] else []

/-- Sign and `0x`. -/
def signPrefix (isSigned negative : Bool) (b : IntegerBase) (c : Conversion) (value : Nat) :
    List Char :=
  (signOf isSigned negative c.flags).toList ++
    prefixOf (if c.flags.pound && value != 0 then b.x else none)

/-- The padding for `n` characters. -/
def padding (c : Conversion) (n : Nat) : Nat := (asInt (c.width - n)).toNat

/-- Characters with their padding: spaces in front, zeros behind the sign and prefix `pre`, or
spaces behind. -/
def padded (c : Conversion) (pre digits : List Char) : List Char :=
  let padCnt := padding c (pre ++ digits).length
  (if !c.flags.minus && !c.flags.zero then List.replicate padCnt ' ' else []) ++ pre ++
    (if c.flags.zero then List.replicate padCnt '0' else []) ++ digits ++
    (if c.flags.minus then List.replicate padCnt ' ' else [])

theorem asInt_of_range {x : Int} (h1 : -2 ^ 31 ≤ x) (h2 : x < 2 ^ 31) : asInt x = x :=
  Int.bmod_eq_of_le_mul_two (by omega) (by omega)

theorem padding_eq {n : Nat} (h1 : 0 ≤ c.width) (h2 : c.width < 2 ^ 31) (hn : n < 2 ^ 31) :
    padding c n = c.width.toNat - n := by
  rw [padding, asInt_of_range (by omega) (by omega)]
  omega

theorem padded_of_padding {pre digits : List Char} (h : padding c (pre ++ digits).length = 0) :
    padded c pre digits = pre ++ digits := by
  unfold padded
  rw [h]
  simp

theorem digits_length (hb : IsBase b) {value : Nat} (hv : value < 2 ^ 64) :
    (Nat.digits b.base value).length ≤ 22 := by
  have hge := hb.base_ge
  rw [Nat.digits_length_le_iff (by omega)]
  calc value < 2 ^ 64 := hv
    _ ≤ 8 ^ 22 := by decide
    _ ≤ b.base ^ 22 := Nat.pow_le_pow_left hge 22

theorem body_length (hb : IsBase b) (hv : value < 2 ^ 64) : (body b c value).length ≤ 63 := by
  have hd := digits_length hb hv
  have hm : (marks b c.flags.group 0 (Nat.digits b.base value)).length ≤ _ := marks_length_le
  simp only [body, List.length_append, List.length_replicate, List.length_reverse]
  omega

/-- **`format_integer`** never overflows its buffer, and this is its output. -/
theorem formatInteger_eq (hb : IsBase b) (value : BitVec 64) (isSigned negative : Bool)
    (c : Conversion) :
    formatInteger value isSigned negative b c =
      .ok (padded c (signPrefix isSigned negative b c value.toNat)
        (octal b c value.toNat ++ body b c value.toNat)) := by
  have hge := hb.base_ge
  have hv := value.isLt
  have hd := digits_length hb hv
  have hm : (marks b c.flags.group 0 (Nat.digits b.base value.toNat)).length ≤ _ := marks_length_le
  have hfuel : value.toNat < b.base ^ 64 :=
    hv.trans_le (Nat.pow_le_pow_left (Nat.le_trans (by decide) hge) 64)
  have hprec : (if c.precision < 0 then 1 else c.precision).toNat = rendered c := by
    unfold rendered
    split <;> rfl
  have hlen := body_length (c := c) hb hv
  have hnz : (value != 0) = (value.toNat != 0) := by
    rw [Bool.eq_iff_iff, bne_iff_ne, bne_iff_ne]
    exact not_congr ⟨fun h => by rw [h]; rfl, fun h => BitVec.eq_of_toNat_eq h⟩
  let ms := marks b c.flags.group 0 (Nat.digits b.base value.toNat)
  have hloop : digitLoop b c.flags.group 64 value.toNat 0 [] = .ok (ms.reverse ++ []) :=
    digitLoop_ok (Nat.le_trans (by decide) hge) hfuel (by rw [List.length_nil]; omega)
  have hzero : zeroLoop (if c.precision < 0 then 1 else c.precision) 64 (ms.reverse ++ []) =
      .ok (body b c value.toNat) := by
    rw [zeroLoop_ok (by omega), hprec, List.append_nil, List.length_reverse, body]
  have hoct : octalZero b c (body b c value.toNat) =
      .ok (octal b c value.toNat ++ body b c value.toNat) := by
    unfold octalZero octal
    by_cases hc : (c.flags.pound && b.base == 8 && (body b c value.toNat).head? != some '0') = true
    · rw [if_pos hc, if_pos hc, push_ok (by omega)]
      rfl
    · rw [if_neg hc, if_neg hc]
      rfl
  unfold formatInteger
  rw [hloop]
  show (zeroLoop _ _ _ >>= _) = _
  rw [hzero]
  show (octalZero _ _ _ >>= _) = _
  rw [hoct, hnz]
  show Except.ok _ = _
  congr 1
  unfold outputInteger padded padding signPrefix
  dsimp only
  generalize (signOf isSigned negative c.flags).toList = sign
  generalize prefixOf (if c.flags.pound && value.toNat != 0 then b.x else none) = x
  generalize octal b c value.toNat ++ body b c value.toNat = buf
  rw [show c.width - (buf.length : Int) - x.length - sign.length =
      c.width - ((sign ++ x ++ buf).length : Nat) by
    rw [List.length_append, List.length_append]
    push_cast
    omega, List.append_assoc _ sign x]

/-- The absolute value that signed conversions print. -/
theorem absValue_toNat (value : BitVec 64) :
    (if decide (value.toInt < 0) then -value else value).toNat = value.toInt.natAbs := by
  rw [← abs64_toNat, abs64]
  by_cases hneg : value.toInt < 0
  · rw [if_pos (decide_eq_true hneg), if_neg (Int.not_le.mpr hneg)]
  · rw [if_neg (by simpa using hneg), if_pos (Int.not_lt.mp hneg)]

/-! ## What the digits denote -/

theorem marks_eq_nil {group : Bool} {ds : List Nat} : marks b group 0 ds = [] ↔ ds = [] := by
  unfold marks
  cases group with
  | false => rw [if_neg (by decide), List.map_eq_nil_iff]
  | true => rw [if_pos rfl, separated_eq_nil, List.map_eq_nil_iff]

end Pintos.Lib.Stdio
