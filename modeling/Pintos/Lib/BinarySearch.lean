import Pintos.Lib.Elements

/-!
# Binary search (lib/stdlib.c)

The interval between `first` and `last` holds every element that compares equal to the key, and each
comparison that finds none makes it shorter. The loop takes a bound on its rounds.
-/

namespace Pintos.Lib

open Pintos.Base

/-- The loop of `binary_search`, at most `n` times. -/
def searchLoop (compare : Compare) (key size : Nat) : (n : Nat) → (first last : Nat) → RamM Nat
  | 0, _, _ => throw .unfinished
  | n + 1, first, last =>
    if first < last then do
      let range := (last - first) / size
      let middle := ptrAdd first (range / 2 * size)
      let cmp ← compare key middle
      if cmp < 0 then searchLoop compare key size n first middle
      else if 0 < cmp then searchLoop compare key size n (ptrAdd middle size) last
      else pure middle
    else pure 0

def binarySearch (n key array cnt size : Nat) (compare : Compare) : RamM Nat :=
  searchLoop compare key size n array (ptrAdd array (size * cnt))

section

variable {m : Ram} {compare : Compare} {key array size cnt lo hi n : Nat} {x : Element size}
  {cmp : Element size → Element size → Int}

/-- What `binary_search` returns: an element that compares equal to the key, or a null pointer when
there is none. -/
def Found (m : Ram) (array size cnt : Nat) (x : Element size) (cmp : Element size → Element size → Int)
    (r : Nat) : Prop :=
  (∃ i < cnt, r = array + i * size ∧ cmp x (elem m array size i) = 0) ∨
    r = 0 ∧ ∀ i < cnt, cmp x (elem m array size i) ≠ 0

theorem middle_eq (hb : array + cnt * size < 2 ^ 32) (hs : 0 < size) (hlt : lo < hi) (hcnt : hi ≤ cnt) :
    ptrAdd (array + lo * size) ((array + hi * size - (array + lo * size)) / size / 2 * size) =
      array + (lo + (hi - lo) / 2) * size := by
  have hsub : array + hi * size - (array + lo * size) = (hi - lo) * size := by
    rw [Nat.add_sub_add_left, Nat.sub_mul]
  have hle : (lo + (hi - lo) / 2) * size ≤ cnt * size := Nat.mul_le_mul_right size (by omega)
  rw [hsub, Nat.mul_div_cancel _ hs, ptrAdd, Nat.add_assoc, ← Nat.add_mul]
  exact Nat.mod_eq_of_lt (by omega)

/-- The loop on the elements from `lo` up to `hi`. -/
theorem searchLoop_run (hc : Comparison cmp) (hs : 0 < size) (hb : array + cnt * size < 2 ^ 32)
    (hsorted : ∀ i j, i < j → j < cnt → cmp (elem m array size i) (elem m array size j) ≤ 0)
    (hcmp : ∀ i < cnt, compare key (array + i * size) m = .ok (cmp x (elem m array size i), m))
    (hle : lo ≤ hi) (hcnt : hi ≤ cnt)
    (hin : ∀ i < cnt, cmp x (elem m array size i) = 0 → lo ≤ i ∧ i < hi) (hn : hi - lo < n) :
    ∃ r, searchLoop compare key size n (array + lo * size) (array + hi * size) m = .ok (r, m) ∧
      Found m array size cnt x cmp r := by
  induction n generalizing lo hi with
  | zero => omega
  | succ n ih =>
    by_cases hlt : lo < hi
    · have hfirst : array + lo * size < array + hi * size :=
        Nat.add_lt_add_left (Nat.mul_lt_mul_of_pos_right hlt hs) array
      obtain ⟨mid, hmid, h1, h2⟩ : ∃ mid, lo + (hi - lo) / 2 = mid ∧ lo ≤ mid ∧ mid < hi :=
        ⟨_, rfl, by omega, by omega⟩
      have hptr := middle_eq hb hs hlt hcnt
      rw [hmid] at hptr
      have hcall := hcmp mid (by omega)
      have hnext : ptrAdd (array + mid * size) size = array + (mid + 1) * size := by
        have hslot := slot_le size (show mid < cnt by omega)
        rw [Nat.succ_mul, ← Nat.add_assoc]
        exact Nat.mod_eq_of_lt (by omega)
      have hround : searchLoop compare key size (n + 1) (array + lo * size) (array + hi * size) m =
          (if cmp x (elem m array size mid) < 0 then
            searchLoop compare key size n (array + lo * size) (array + mid * size)
          else if 0 < cmp x (elem m array size mid) then
            searchLoop compare key size n (array + (mid + 1) * size) (array + hi * size)
          else pure (array + mid * size) : RamM Nat) m := by
        rw [searchLoop, if_pos hfirst, hptr, bind_run, hcall, ok_bind, hnext]
      rw [hround]
      split
      · next hless =>
        refine ih h1 (by omega) (fun i hi0 heq => ⟨(hin i hi0 heq).1, ?_⟩) (by omega)
        by_contra hge
        rcases Nat.lt_or_eq_of_le (Nat.not_lt.mp hge) with hgt | rfl
        · exact absurd ((hc.swap _ _).mp hless)
            (Int.not_lt.mpr (hc.trans _ _ _ (hsorted mid i hgt hi0) (hc.le_of_eq heq)))
        · omega
      · split
        · next hmore =>
          refine ih (by omega) hcnt (fun i hi0 heq => ⟨?_, (hin i hi0 heq).2⟩) (by omega)
          by_contra hlow
          rcases Nat.lt_or_eq_of_le (Nat.lt_succ_iff.mp (Nat.not_le.mp hlow)) with hgt | rfl
          · exact absurd hmore
              (Int.not_lt.mpr (hc.trans _ _ _ (Int.le_of_eq heq) (hsorted i mid hgt (by omega))))
          · omega
        · exact ⟨_, rfl, .inl ⟨mid, by omega, rfl, by omega⟩⟩
    · have hfirst : ¬ array + lo * size < array + hi * size := by
        have : hi = lo := by omega
        rw [this]
        exact Nat.lt_irrefl _
      refine ⟨0, ?_, .inr ⟨rfl, fun i hi h0 => ?_⟩⟩
      · rw [searchLoop, if_neg hfirst]
        rfl
      · have := hin i hi h0
        omega

/-- **`binary_search`** of a sorted array returns an element that compares equal to the key if there
is one, and a null pointer otherwise. The key is compared with elements of the array only: nothing is
known of `compare` on other pointers. The array is an object, so the pointer behind it does not go
round. -/
theorem binary_search_finds (hc : Comparison cmp) (hs : 0 < size) (hblock : Block m array (cnt * size))
    (hb : array + cnt * size < 2 ^ 32) (hsorted : (elems m array size cnt).Pairwise fun a b => cmp a b ≤ 0)
    (hcmp : ∀ i < cnt, compare key (array + i * size) m = .ok (cmp x (elem m array size i), m))
    (hn : cnt < n) :
    ∃ r, binarySearch n key array cnt size compare m = .ok (r, m) ∧
      (r ≠ 0 → ∃ i < cnt, r = array + i * size ∧ cmp x (elem m array size i) = 0) ∧
      (r = 0 ↔ ∀ i < cnt, cmp x (elem m array size i) ≠ 0) := by
  obtain ⟨r, hrun, hr⟩ := searchLoop_run hc hs hb (pairwise_elems.mp hsorted) hcmp
    (Nat.zero_le cnt) (Nat.le_refl cnt) (fun i hi _ => ⟨Nat.zero_le i, hi⟩) (by omega)
  have hlast : ptrAdd array (size * cnt) = array + cnt * size := by
    rw [Nat.mul_comm]
    exact Nat.mod_eq_of_lt hb
  refine ⟨r, ?_, ?_, ?_⟩
  · rw [binarySearch, hlast]
    rwa [Nat.zero_mul, Nat.add_zero] at hrun
  · intro hne
    exact hr.resolve_right fun h => hne h.1
  · rcases hr with ⟨i, hi, rfl, heq⟩ | ⟨h0, hno⟩
    · have hnull := (hblock.slot hi hs).ne_null hs
      exact iff_of_false hnull fun hno => hno i hi heq
    · exact iff_of_true h0 hno

end

/-- The bytes 1, 3, 3 and 7. -/
def sortedBytes : Ram := Ram.ofList 16 [1, 3, 3, 7] (by decide)

/-- The difference of two bytes. -/
def cmpBytes (a b : Element 1) : Int := (a[0].toNat : Int) - b[0].toNat

theorem cmpBytes_comparison : Comparison cmpBytes where
  swap a b := by
    unfold cmpBytes
    omega
  trans a b c := by
    unfold cmpBytes
    omega

/-- Compares the bytes at two addresses. -/
def compareBytes (a b : Nat) : RamM Int := do
  let x ← load a
  let y ← load b
  pure ((x.toNat : Int) - y.toNat)

theorem three_found : ∃ r, binarySearch 5 17 16 4 1 compareBytes sortedBytes = .ok (r, sortedBytes) ∧
    (r ≠ 0 → ∃ i < 4, r = 16 + i * 1 ∧ cmpBytes #v[3] (elem sortedBytes 16 1 i) = 0) := by
  have hcmp : ∀ i < 4, compareBytes 17 (16 + i * 1) sortedBytes =
      .ok (cmpBytes #v[3] (elem sortedBytes 16 1 i), sortedBytes) := by
    intro i hi
    obtain rfl | rfl | rfl | rfl : i = 0 ∨ i = 1 ∨ i = 2 ∨ i = 3 := by omega
    all_goals rfl
  obtain ⟨r, hrun, hr, -⟩ := @binary_search_finds sortedBytes compareBytes 17 16 1 4 5 #v[3] cmpBytes
    cmpBytes_comparison (by decide) ⟨by decide, by decide⟩ (by decide) (by decide) hcmp (by decide)
  exact ⟨r, hrun, hr⟩

end Pintos.Lib
