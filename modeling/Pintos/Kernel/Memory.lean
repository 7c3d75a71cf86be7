import Mathlib.Algebra.Order.Ring.Int
import Mathlib.Data.List.Basic
import Mathlib.Tactic.Common

/-!
# Bytes in memory (lib/string.c)

A buffer is the memory from a pointer on, as a function of the offset. Words are
little-endian; a C string is a list of bytes other than the terminator.
-/

namespace Pintos.Kernel

abbrev Buffer := Nat → UInt8

/-- `n` bytes of `src` from `i` on, copied over `dst` from `o` on. -/
def memcpy (dst : Buffer) (o : Nat) (src : Buffer) (i n : Nat) : Buffer := fun k =>
  if o ≤ k ∧ k < o + n then src (i + (k - o)) else dst k

/-- The pointer `b + n`. -/
def bufferAt (b : Buffer) (n : Nat) : Buffer := fun k => b (n + k)

/-- A page of zeros, as `calloc` and `memset` leave it. -/
def zeros : Buffer := fun _ => 0

/-- The 32-bit word at offset `i`. -/
def load32 (b : Buffer) (i : Nat) : Nat :=
  (b i).toNat + 2 ^ 8 * (b (i + 1)).toNat + 2 ^ 16 * (b (i + 2)).toNat +
    2 ^ 24 * (b (i + 3)).toNat

/-- Byte `k` of a 32-bit word. -/
def wordByte (w k : Nat) : UInt8 := UInt8.ofNat (w / 2 ^ (8 * k))

def store32 (b : Buffer) (i w : Nat) : Buffer := memcpy b i (wordByte w) 0 4

/-- A 32-bit word as a signed number. -/
def asInt32 (w : Nat) : Int := if w < 2 ^ 31 then w else (w : Int) - 2 ^ 32

/-- The word that holds a signed number. -/
def ofInt32 (x : Int) : Nat := (x % 2 ^ 32).toNat

/-- A C string up to its terminator. -/
structure CString where
  chars : List UInt8
  no_nul : 0 ∉ chars
  deriving DecidableEq

def strlen (s : CString) : Nat := s.chars.length

/-- `!strcmp (s, b)` -/
def strEq (s : CString) (b : Buffer) : Bool :=
  (List.range (strlen s)).all (fun i => b i == s.chars.getD i 0) && b (strlen s) == 0

/-- `strlcpy (b + o, s, size)` -/
def strlcpy (b : Buffer) (o : Nat) (s : CString) (size : Nat) : Buffer :=
  let n := min (strlen s) (size - 1)
  memcpy (memcpy b o (fun i => s.chars.getD i 0) 0 n) (o + n) zeros 0 1

theorem memcpy_in {dst src : Buffer} {o i n k : Nat} (h : o ≤ k) (h' : k < o + n) :
    memcpy dst o src i n k = src (i + (k - o)) := if_pos ⟨h, h'⟩

theorem memcpy_out {dst src : Buffer} {o i n k : Nat} (h : k < o ∨ o + n ≤ k) :
    memcpy dst o src i n k = dst k := if_neg (by omega)

theorem bufferAt_bufferAt (b : Buffer) (m n : Nat) :
    bufferAt (bufferAt b m) n = bufferAt b (m + n) := by
  funext k
  unfold bufferAt
  rw [Nat.add_assoc]

theorem bufferAt_zero (b : Buffer) : bufferAt b 0 = b := by
  funext k
  unfold bufferAt
  rw [Nat.zero_add]

theorem memcpy_zero (dst src : Buffer) (o i : Nat) : memcpy dst o src i 0 = dst := by
  funext k
  exact memcpy_out (by omega)

/-- Two copies that follow each other. -/
theorem memcpy_memcpy (dst src : Buffer) (o i m n : Nat) :
    memcpy (memcpy dst o src i m) (o + m) src (i + m) n = memcpy dst o src i (m + n) := by
  funext k
  by_cases h1 : o + m ≤ k ∧ k < o + m + n
  · rw [memcpy_in h1.1 h1.2, memcpy_in (by omega) (by omega)]
    congr 1
    omega
  · rw [memcpy_out (by omega)]
    by_cases h2 : o ≤ k ∧ k < o + m
    · rw [memcpy_in h2.1 h2.2, memcpy_in (by omega) (by omega)]
    · rw [memcpy_out (by omega), memcpy_out (by omega)]

theorem load32_eq {b b' : Buffer} {i j : Nat} (h : ∀ k < 4, b (i + k) = b' (j + k)) :
    load32 b i = load32 b' j := by
  have h0 := h 0 (by omega)
  have h1 := h 1 (by omega)
  have h2 := h 2 (by omega)
  have h3 := h 3 (by omega)
  simp only [Nat.add_zero] at h0
  simp only [load32, h0, h1, h2, h3]

theorem load32_congr {b b' : Buffer} {i : Nat} (h : ∀ k < 4, b (i + k) = b' (i + k)) :
    load32 b i = load32 b' i := load32_eq h

theorem load32_store32 (b : Buffer) (i : Nat) {w : Nat} (h : w < 2 ^ 32) :
    load32 (store32 b i w) i = w := by
  have hb : ∀ k < 4, store32 b i w (i + k) = wordByte w k := by
    intro k hk
    rw [store32, memcpy_in (by omega) (by omega)]
    congr 1
    omega
  have h0 := hb 0 (by omega)
  simp only [Nat.add_zero] at h0
  simp only [load32, h0, hb 1 (by omega), hb 2 (by omega), hb 3 (by omega), wordByte,
    UInt8.toNat_ofNat']
  omega

theorem load32_store32_of_disjoint {b : Buffer} {i j w : Nat} (h : j + 4 ≤ i ∨ i + 4 ≤ j) :
    load32 (store32 b i w) j = load32 b j :=
  load32_congr fun k hk => memcpy_out (by omega)

theorem load32_lt (b : Buffer) (i : Nat) : load32 b i < 2 ^ 32 := by
  have h0 := (b i).toNat_lt
  have h1 := (b (i + 1)).toNat_lt
  have h2 := (b (i + 2)).toNat_lt
  have h3 := (b (i + 3)).toNat_lt
  unfold load32
  omega

theorem ofInt32_lt (x : Int) : ofInt32 x < 2 ^ 32 := by
  unfold ofInt32
  omega

theorem asInt32_ofInt32 {x : Int} (h0 : -2 ^ 31 ≤ x) (h1 : x < 2 ^ 31) :
    asInt32 (ofInt32 x) = x := by
  unfold asInt32 ofInt32
  split <;> omega

end Pintos.Kernel
