import Mathlib.Data.List.Basic
import Mathlib.Tactic.Common

/-!
# Bitmaps (lib/kernel/bitmap.c)

A bitmap as the vector of its bits. The functions follow the loops of the source,
one bit at a time; `none` stands for `BITMAP_ERROR`.
-/

namespace Pintos.Kernel

structure Bitmap where
  bits : List Bool
  deriving DecidableEq, Repr

def bitmapSize (b : Bitmap) : Nat := b.bits.length

/-- `bitmap_create`: all bits false. -/
def bitmapCreate (n : Nat) : Bitmap := ⟨List.replicate n false⟩

def bitmapTest (b : Bitmap) (i : Nat) : Bool := b.bits.getD i false

def bitmapSet (b : Bitmap) (i : Nat) (v : Bool) : Bitmap := ⟨b.bits.set i v⟩

/-- Sets the `cnt` bits from `start` on. -/
def bitmapSetMultiple (b : Bitmap) (start : Nat) : (cnt : Nat) → (v : Bool) → Bitmap
  | 0, _ => b
  | n + 1, v => bitmapSetMultiple (bitmapSet b start v) (start + 1) n v

/-- Some bit of the `cnt` from `start` on is `v`. -/
def bitmapContains (b : Bitmap) (start : Nat) : (cnt : Nat) → (v : Bool) → Bool
  | 0, _ => false
  | n + 1, v => bitmapTest b start == v || bitmapContains b (start + 1) n v

def bitmapAll (b : Bitmap) (start cnt : Nat) : Bool := !bitmapContains b start cnt false

/-- The loop of `bitmap_scan` from index `i`, `n` indices before it gives up. -/
def bitmapScanFrom (b : Bitmap) (cnt : Nat) (v : Bool) (i : Nat) : (n : Nat) → Option Nat
  | 0 => none
  | n + 1 =>
    if bitmapContains b i cnt (!v) then bitmapScanFrom b cnt v (i + 1) n else some i

/-- The first index from `start` on of `cnt` consecutive bits equal to `v`. -/
def bitmapScan (b : Bitmap) (start cnt : Nat) (v : Bool) : Option Nat :=
  if cnt ≤ bitmapSize b then bitmapScanFrom b cnt v start (bitmapSize b - cnt + 1 - start) else none

/-- `bitmap_scan_and_flip`: the index found and the bitmap with the group flipped. -/
def bitmapScanAndFlip (b : Bitmap) (start cnt : Nat) (v : Bool) : Option Nat × Bitmap :=
  match bitmapScan b start cnt v with
  | none => (none, b)
  | some i => (some i, bitmapSetMultiple b i cnt !v)

/-! ## What each function does to the bits -/

@[simp] theorem bitmapSize_create (n : Nat) : bitmapSize (bitmapCreate n) = n := by
  simp [bitmapSize, bitmapCreate]

@[simp] theorem bitmapTest_create (n i : Nat) : bitmapTest (bitmapCreate n) i = false := by
  simp [bitmapTest, bitmapCreate, List.getD_eq_getElem?_getD, List.getElem?_replicate]
  split <;> rfl

/-- A set bit is inside the bitmap. -/
theorem bitmapTest_lt {b : Bitmap} {i : Nat} (h : bitmapTest b i = true) : i < bitmapSize b := by
  by_contra hi
  have hlen : b.bits.length ≤ i := Nat.not_lt.mp hi
  rw [bitmapTest, List.getD_eq_getElem?_getD, List.getElem?_eq_none hlen] at h
  cases h

@[simp] theorem bitmapSize_set (b : Bitmap) (i : Nat) (v : Bool) :
    bitmapSize (bitmapSet b i v) = bitmapSize b := by
  simp [bitmapSize, bitmapSet]

theorem bitmapTest_set {b : Bitmap} {i : Nat} (h : i < bitmapSize b) (v : Bool) (j : Nat) :
    bitmapTest (bitmapSet b i v) j = if j = i then v else bitmapTest b j := by
  unfold bitmapTest bitmapSet
  simp only [List.getD_eq_getElem?_getD, List.getElem?_set]
  by_cases hij : i = j
  · subst hij
    simp [show i < b.bits.length from h]
  · simp [hij, Ne.symm hij]

@[simp] theorem bitmapSize_setMultiple (b : Bitmap) (start cnt : Nat) (v : Bool) :
    bitmapSize (bitmapSetMultiple b start cnt v) = bitmapSize b := by
  induction cnt generalizing b start with
  | zero => rfl
  | succ n ih => rw [bitmapSetMultiple, ih, bitmapSize_set]

theorem bitmapTest_setMultiple {b : Bitmap} {start cnt : Nat} (h : start + cnt ≤ bitmapSize b)
    (v : Bool) (j : Nat) :
    bitmapTest (bitmapSetMultiple b start cnt v) j =
      if start ≤ j ∧ j < start + cnt then v else bitmapTest b j := by
  induction cnt generalizing b start with
  | zero => rw [bitmapSetMultiple, if_neg (by omega)]
  | succ n ih =>
    rw [bitmapSetMultiple, ih (by rw [bitmapSize_set]; omega), bitmapTest_set (by omega)]
    by_cases h1 : start + 1 ≤ j ∧ j < start + 1 + n
    · rw [if_pos h1, if_pos (by omega)]
    · by_cases h2 : j = start
      · rw [if_neg h1, if_pos h2, if_pos (by omega)]
      · rw [if_neg h1, if_neg h2, if_neg (by omega)]

theorem bitmapContains_iff {b : Bitmap} {start cnt : Nat} {v : Bool} :
    bitmapContains b start cnt v = true ↔ ∃ i < cnt, bitmapTest b (start + i) = v := by
  induction cnt generalizing start with
  | zero => simp [bitmapContains]
  | succ n ih =>
    simp only [bitmapContains, Bool.or_eq_true, beq_iff_eq, ih]
    constructor
    · rintro (h | ⟨i, hi, h⟩)
      · exact ⟨0, by omega, h⟩
      · exact ⟨i + 1, by omega, by rw [← h]; congr 1; omega⟩
    · rintro ⟨i, hi, h⟩
      rcases i with _ | i
      · exact .inl h
      · exact .inr ⟨i, by omega, by rw [← h]; congr 1; omega⟩

theorem bitmapContains_not {b : Bitmap} {start cnt : Nat} {v : Bool} :
    bitmapContains b start cnt (!v) = false ↔ ∀ i < cnt, bitmapTest b (start + i) = v := by
  rw [← Bool.not_eq_true, bitmapContains_iff]
  push Not
  refine forall₂_congr fun i _ => ?_
  cases bitmapTest b (start + i) <;> cases v <;> simp

theorem bitmapAll_iff {b : Bitmap} {start cnt : Nat} :
    bitmapAll b start cnt = true ↔ ∀ i < cnt, bitmapTest b (start + i) = true := by
  rw [bitmapAll, Bool.not_eq_true', show false = !true from rfl]
  exact bitmapContains_not

theorem bitmapScanFrom_some {b : Bitmap} {cnt : Nat} {v : Bool} {i n k : Nat}
    (h : bitmapScanFrom b cnt v i n = some k) :
    i ≤ k ∧ k < i + n ∧ ∀ j < cnt, bitmapTest b (k + j) = v := by
  induction n generalizing i with
  | zero => cases h
  | succ n ih =>
    unfold bitmapScanFrom at h
    split at h
    · obtain ⟨h1, h2, h3⟩ := ih h
      exact ⟨by omega, by omega, h3⟩
    · next hc =>
      cases h
      exact ⟨by omega, by omega, bitmapContains_not.mp (by simpa using hc)⟩

/-- A group found lies in the bitmap and has the wanted value. -/
theorem bitmapScan_some {b : Bitmap} {start cnt : Nat} {v : Bool} {k : Nat}
    (h : bitmapScan b start cnt v = some k) :
    start ≤ k ∧ k + cnt ≤ bitmapSize b ∧ ∀ j < cnt, bitmapTest b (k + j) = v := by
  unfold bitmapScan at h
  split at h
  · obtain ⟨h1, h2, h3⟩ := bitmapScanFrom_some h
    exact ⟨h1, by omega, h3⟩
  · cases h

theorem bitmapScanFrom_first {b : Bitmap} {cnt : Nat} {v : Bool} {i n m : Nat} (h1 : i ≤ m)
    (h2 : m < i + n) (h : ∀ j < cnt, bitmapTest b (m + j) = v) :
    ∃ k ≤ m, bitmapScanFrom b cnt v i n = some k := by
  induction n generalizing i with
  | zero => omega
  | succ n ih =>
    unfold bitmapScanFrom
    by_cases hc : bitmapContains b i cnt (!v) = true
    · rw [if_pos hc]
      have hne : i ≠ m := by
        rintro rfl
        rw [bitmapContains_not.mpr h] at hc
        cases hc
      exact ih (by omega) (by omega)
    · rw [if_neg hc]
      exact ⟨i, h1, rfl⟩

/-- Where there is a group, one is found, and none before it is passed over. -/
theorem bitmapScan_first {b : Bitmap} {start cnt : Nat} {v : Bool} {m : Nat} (h1 : start ≤ m)
    (h2 : m + cnt ≤ bitmapSize b) (h : ∀ j < cnt, bitmapTest b (m + j) = v) :
    ∃ k ≤ m, bitmapScan b start cnt v = some k := by
  unfold bitmapScan
  rw [if_pos (by omega)]
  exact bitmapScanFrom_first h1 (by omega) h

/-- Every bit of a group found has the wanted value. -/
theorem bitmapScan_test {b : Bitmap} {start cnt : Nat} {v : Bool} {k t : Nat}
    (h : bitmapScan b start cnt v = some k) (h1 : k ≤ t) (h2 : t < k + cnt) : bitmapTest b t = v := by
  rw [← (bitmapScan_some h).2.2 (t - k) (by omega)]
  congr 1
  omega

/-- Bitmaps of one size with the same bits are equal. -/
theorem bitmap_ext {b b' : Bitmap} (hs : bitmapSize b = bitmapSize b')
    (h : ∀ i < bitmapSize b, bitmapTest b i = bitmapTest b' i) : b = b' := by
  obtain ⟨l⟩ := b
  obtain ⟨l'⟩ := b'
  congr 1
  refine List.ext_getElem hs fun i h1 h2 => ?_
  simpa [bitmapTest, List.getD_eq_getElem?_getD, h1, h2] using h i h1

end Pintos.Kernel
