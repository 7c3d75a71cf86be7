import Pintos.Lib.BinarySearch

/-!
# Heap sort (lib/stdlib.c)

`sort` makes a heap of the array from the last parent down to the root, and then moves the root behind
the heap as long as there is one. Indexes begin with 1. Sizes and indexes are 32-bit numbers, and the
loop of `heapify` takes a bound on its rounds.
-/

namespace Pintos.Lib

open Pintos.Base

/-- The address of the element with the 1-based index `idx`. -/
def elemPtr (array idx size : Nat) : Nat := (array + (idx + (2 ^ 32 - 1)) * size) % 2 ^ 32

/-- The loop of `do_swap`, with `cnt` bytes to go. -/
def swapBytes (a b : Nat) : (cnt : Nat) → (i : Nat) → RamM Unit
  | 0, _ => pure ()
  | cnt + 1, i => do
    let t ← load (ptrAdd a i)
    let u ← load (ptrAdd b i)
    store (ptrAdd a i) u
    store (ptrAdd b i) t
    swapBytes a b cnt (i + 1)

def doSwap (array aIdx bIdx size : Nat) : RamM Unit :=
  swapBytes (elemPtr array aIdx size) (elemPtr array bIdx size) size 0

def doCompare (array aIdx bIdx size : Nat) (compare : Compare) : RamM Int :=
  compare (elemPtr array aIdx size) (elemPtr array bIdx size)

/-- The child instead of `max`, if there is one and it is larger. -/
def larger (array child max cnt size : Nat) (compare : Compare) : RamM Nat :=
  if child ≤ cnt then do
    let c ← doCompare array child max size compare
    pure (if 0 < c then child else max)
  else pure max

/-- `heapify`, at most `n` rounds of it. -/
def heapify (array cnt size : Nat) (compare : Compare) : (n : Nat) → (i : Nat) → RamM Unit
  | 0, _ => throw .unfinished
  | n + 1, i => do
    let left := 2 * i % 2 ^ 32
    let right := (2 * i + 1) % 2 ^ 32
    let max ← larger array left i cnt size compare
    let max ← larger array right max cnt size compare
    if max = i then pure ()
    else do
      doSwap array i max size
      heapify array cnt size compare n max

/-- `for (; i > 0; i--) heapify (array, i, cnt, size, compare, aux);` -/
def buildHeap (n array cnt size : Nat) (compare : Compare) : (i : Nat) → RamM Unit
  | 0 => pure ()
  | i + 1 => do
    heapify array cnt size compare n (i + 1)
    buildHeap n array cnt size compare i

/-- `for (; i > 1; i--)` with the swap and the `heapify` of the rest. -/
def sortHeap (n array size : Nat) (compare : Compare) : (i : Nat) → RamM Unit
  | 0 => pure ()
  | i + 1 =>
    if 1 < i + 1 then do
      doSwap array 1 (i + 1) size
      heapify array i size compare n 1
      sortHeap n array size compare i
    else pure ()

def sort (n array cnt size : Nat) (compare : Compare) : RamM Unit := do
  assertThat (array != 0 || cnt == 0)
  assertThat (decide (0 < size))
  buildHeap n array cnt size compare (cnt / 2)
  sortHeap n array size compare cnt

/-! ## Swaps -/

/-- The bytes with the offsets from `i` up to `j` have changed places. -/
structure Swapped (m m' : Ram) (a b i j : Nat) : Prop where
  left : ∀ k, i ≤ k → k < j → m'.byte (a + k) = m.byte (b + k)
  right : ∀ k, i ≤ k → k < j → m'.byte (b + k) = m.byte (a + k)
  frame : ∀ q, (∀ k, i ≤ k → k < j → q ≠ a + k ∧ q ≠ b + k) → m'.byte q = m.byte q
  isSome : ∀ q, (m'.byte q).isSome = (m.byte q).isSome

section

variable {m m' : Ram} {a b i n size : Nat}

theorem swapBytes_run (ha : ∀ k < size, (m.byte (a + k)).isSome) (hb : ∀ k < size, (m.byte (b + k)).isSome)
    (hab : a + size ≤ b ∨ b + size ≤ a) (hi : i + n = size) :
    ∃ m', swapBytes a b n i m = .ok ((), m') ∧ Swapped m m' a b i size := by
  induction n generalizing m i with
  | zero => exact ⟨m, rfl, ⟨fun k _ _ => by omega, fun k _ _ => by omega, fun _ _ => rfl, fun _ => rfl⟩⟩
  | succ n ih =>
    have hai := ha i (by omega)
    have hbi := hb i (by omega)
    obtain ⟨t, ht⟩ := Option.isSome_iff_exists.mp hai
    obtain ⟨u, hu⟩ := Option.isSome_iff_exists.mp hbi
    have hbi' : ((m.set (a + i) u).byte (b + i)).isSome := by rwa [isSome_set]
    obtain ⟨m', hrun, hs⟩ := ih (m := (m.set (a + i) u).set (b + i) t) (i := i + 1)
      (fun k hk => by rw [isSome_set, isSome_set]; exact ha k hk)
      (fun k hk => by rw [isSome_set, isSome_set]; exact hb k hk) (by omega)
    refine ⟨m', ?_, ?_, ?_, ?_, fun q => by rw [hs.isSome, isSome_set, isSome_set]⟩
    · rw [swapBytes, ptrAdd_eq hai, ptrAdd_eq hbi, bind_run, load_run ht, ok_bind, bind_run, load_run hu,
        ok_bind, bind_run, store_run hai, ok_bind, bind_run, store_run hbi', ok_bind, hrun]
    · intro k hk hk'
      by_cases he : k = i
      · subst he
        rw [hs.frame _ fun j hj hj' => by omega, byte_set_of_ne (by omega), byte_set_self hai, hu]
      · rw [hs.left k (by omega) hk', byte_set_of_ne (by omega), byte_set_of_ne (by omega)]
    · intro k hk hk'
      by_cases he : k = i
      · subst he
        rw [hs.frame _ fun j hj hj' => by omega, byte_set_self hbi', ht]
      · rw [hs.right k (by omega) hk', byte_set_of_ne (by omega), byte_set_of_ne (by omega)]
    · intro q hq
      have hqi := hq i (Nat.le_refl i) (by omega)
      rw [hs.frame q fun k hk hk' => hq k (by omega) hk', byte_set_of_ne hqi.2, byte_set_of_ne hqi.1]

end

/-! ## The array -/

/-- Only bytes of the array differ, and no byte comes or goes. -/
structure OnlyArray (m m' : Ram) (array len : Nat) : Prop where
  frame : ∀ q, ¬ (array ≤ q ∧ q < array + len) → m'.byte q = m.byte q
  isSome : ∀ q, (m'.byte q).isSome = (m.byte q).isSome

/-- What `sort` is given: `cnt` elements of `size` bytes in `m`, and a function that compares them
whatever their order is. -/
structure SortArray (m : Ram) (array cnt size : Nat) (compare : Compare)
    (cmp : Element size → Element size → Int) : Prop where
  comparison : Comparison cmp
  size_pos : 0 < size
  bound : cnt * size < 2 ^ 31
  block : Block m array (cnt * size)
  calls : ∀ m', OnlyArray m m' array (cnt * size) → ∀ i < cnt, ∀ j < cnt,
    compare (array + i * size) (array + j * size) m' = .ok (cmp (elem m' array size i) (elem m' array size j), m')

/-- The memory while the array is sorted, with the elements by their 1-based indexes. -/
structure Shows (m m' : Ram) (array cnt size : Nat) (a : Nat → Element size) : Prop where
  only : OnlyArray m m' array (cnt * size)
  elem : ∀ i < cnt, elem m' array size i = a (i + 1)

section

variable {m₀ m : Ram} {array cnt size n k i j : Nat} {compare : Compare}
  {cmp : Element size → Element size → Int} {a : Nat → Element size}

theorem SortArray.elemPtr_eq (h : SortArray m₀ array cnt size compare cmp) (hi : i < cnt) :
    elemPtr array (i + 1) size = array + i * size := by
  have hle := slot_le size hi
  have hpos := h.size_pos
  have hbound := h.block.bound (by omega)
  have hidx : i + 1 + (2 ^ 32 - 1) = i + 2 ^ 32 := by omega
  rw [elemPtr, hidx, Nat.add_mul, ← Nat.add_assoc, Nat.add_mul_mod_self_left]
  exact Nat.mod_eq_of_lt (by omega)

theorem SortArray.cnt_lt (h : SortArray m₀ array cnt size compare cmp) : cnt < 2 ^ 31 :=
  Nat.lt_of_le_of_lt (Nat.le_mul_of_pos_right cnt h.size_pos) h.bound

theorem SortArray.compare_run (h : SortArray m₀ array cnt size compare cmp)
    (hm : Shows m₀ m array cnt size a) (hi : 1 ≤ i ∧ i ≤ cnt) (hj : 1 ≤ j ∧ j ≤ cnt) :
    doCompare array i j size compare m = .ok (cmp (a i) (a j), m) := by
  obtain ⟨i, rfl⟩ := Nat.exists_eq_add_of_le' hi.1
  obtain ⟨j, rfl⟩ := Nat.exists_eq_add_of_le' hj.1
  rw [doCompare, h.elemPtr_eq hi.2, h.elemPtr_eq hj.2, h.calls m hm.only i hi.2 j hj.2, hm.elem i hi.2,
    hm.elem j hj.2]

/-- **`do_swap`** -/
theorem SortArray.swap_run (h : SortArray m₀ array cnt size compare cmp) (hm : Shows m₀ m array cnt size a)
    (hi : 1 ≤ i ∧ i ≤ cnt) (hj : 1 ≤ j ∧ j ≤ cnt) (hne : i ≠ j) :
    ∃ m', doSwap array i j size m = .ok ((), m') ∧ Shows m₀ m' array cnt size (swapAt a i j) := by
  obtain ⟨i, rfl⟩ := Nat.exists_eq_add_of_le' hi.1
  obtain ⟨j, rfl⟩ := Nat.exists_eq_add_of_le' hj.1
  have hblock := h.block.congr hm.only.isSome
  have hisl := slot_le size hi.2
  have hjsl := slot_le size hj.2
  -- different elements share no byte
  have hapart : ∀ {k l : Nat}, k ≠ l → array + k * size + size ≤ array + l * size ∨
      array + l * size + size ≤ array + k * size := by
    intro k l hkl
    rcases Nat.lt_or_gt_of_ne hkl with hlt | hlt
    · have := slot_le size hlt
      omega
    · have := slot_le size hlt
      omega
  obtain ⟨m', hrun, hs⟩ := swapBytes_run (i := 0) (n := size) (hblock.slot hi.2 h.size_pos).bytes
    (hblock.slot hj.2 h.size_pos).bytes (hapart fun he => hne (congrArg (· + 1) he)) (Nat.zero_add size)
  refine ⟨m', ?_, ⟨fun q hq => ?_, fun q => (hs.isSome q).trans (hm.only.isSome q)⟩, fun e he => ?_⟩
  · rw [doSwap, h.elemPtr_eq hi.2, h.elemPtr_eq hj.2]
    exact hrun
  · rw [hs.frame q fun k _ hk => by omega]
    exact hm.only.frame q hq
  · by_cases hei : e = i
    · subst hei
      rw [swapAt_left, ← hm.elem j hj.2]
      exact elem_congr fun k hk => hs.left k (Nat.zero_le k) hk
    · by_cases hej : e = j
      · subst hej
        rw [swapAt_right, ← hm.elem i hi.2]
        exact elem_congr fun k hk => hs.right k (Nat.zero_le k) hk
      · rw [swapAt_of_ne (fun he => hei (Nat.succ.inj he)) (fun he => hej (Nat.succ.inj he)), ← hm.elem e he]
        refine elem_congr fun k hk => hs.frame _ fun l _ hl => ?_
        have h1 := hapart hei
        have h2 := hapart hej
        omega

theorem larger_run (h : SortArray m₀ array cnt size compare cmp) (hm : Shows m₀ m array cnt size a)
    (hn : n ≤ cnt) (hi : 1 ≤ i) (hj : 1 ≤ j ∧ j ≤ cnt) :
    larger array i j n size compare m = .ok (largerOf cmp a n i j, m) := by
  unfold larger largerOf
  by_cases hin : i ≤ n
  · rw [if_pos hin, bind_run, h.compare_run hm ⟨hi, hin.trans hn⟩ hj, ok_bind]
    simp only [hin, true_and, pure_run]
  · rw [if_neg hin, if_neg fun hlt => hin hlt.1]
    rfl

/-! ## The loops -/

/-- **`heapify`** lets the element in the hole float down. -/
theorem heapify_run (h : SortArray m₀ array cnt size compare cmp) (hm : Shows m₀ m array cnt size a)
    {lo : Nat} (hlo : 1 ≤ lo) (hn : n ≤ cnt) (hi : i ≤ n) (hs : Sifting cmp a lo n i) (hk : n - i < k) :
    ∃ m' b, heapify array n size compare k i m = .ok ((), m') ∧ Shows m₀ m' array cnt size b ∧
      HeapFrom cmp b lo n ∧ Rearranged n a b := by
  induction k generalizing m a i with
  | zero => omega
  | succ k ih =>
    have hlow := hs.low
    have hcnt := h.cnt_lt
    obtain ⟨h1, h2, h3⟩ := largest_spec h.comparison a n i
    have hmax : 1 ≤ largerOf cmp a n (2 * i) i ∧ largerOf cmp a n (2 * i) i ≤ cnt := by
      rcases (largerOf_spec h.comparison a n (2 * i) i).2.2 with he | ⟨he, hle⟩ <;> rw [he] <;> omega
    have hleft := larger_run (i := 2 * i) (j := i) h hm hn (by omega) ⟨by omega, by omega⟩
    have hright := larger_run (i := 2 * i + 1) h hm hn (by omega) hmax
    have hround : heapify array n size compare (k + 1) i m = (if largest cmp a n i = i then pure ()
        else do
          doSwap array i (largest cmp a n i) size
          heapify array n size compare k (largest cmp a n i) : RamM Unit) m := by
      rw [heapify, Nat.mod_eq_of_lt (show 2 * i < 2 ^ 32 by omega),
        Nat.mod_eq_of_lt (show 2 * i + 1 < 2 ^ 32 by omega), bind_run, hleft, ok_bind, bind_run, hright]
      rfl
    rw [hround]
    by_cases he : largest cmp a n i = i
    · rw [he] at h2
      rw [if_pos he]
      exact ⟨m, a, rfl, hm, hs.stop h2, .refl n a⟩
    · obtain ⟨hmn, hmi⟩ := h3.resolve_left he
      have hiN : 1 ≤ i ∧ i ≤ n := ⟨by omega, hi⟩
      have hmN : 1 ≤ largest cmp a n i ∧ largest cmp a n i ≤ n := ⟨by omega, hmn⟩
      obtain ⟨m₁, hswap, hm₁⟩ := h.swap_run hm ⟨hiN.1, hiN.2.trans hn⟩ ⟨hmN.1, hmN.2.trans hn⟩ (Ne.symm he)
      obtain ⟨m', b, hrun, hm', hheap, hre⟩ := ih hm₁ hmn (hs.down hlo hmn hmi h1 h2) (by omega)
      refine ⟨m', b, ?_, hm', hheap, (rearranged_swapAt hiN hmN a).trans hre⟩
      rw [if_neg he, bind_run, hswap, ok_bind]
      exact hrun

/-- **The heap is built** from its last parent down to the root. -/
theorem buildHeap_run (h : SortArray m₀ array cnt size compare cmp) (hm : Shows m₀ m array cnt size a)
    (hi : i ≤ cnt) (hheap : HeapFrom cmp a (i + 1) cnt) (hn : cnt < n) :
    ∃ m' b, buildHeap n array cnt size compare i m = .ok ((), m') ∧ Shows m₀ m' array cnt size b ∧
      HeapFrom cmp b 1 cnt ∧ Rearranged cnt a b := by
  induction i generalizing m a with
  | zero => exact ⟨m, a, rfl, hm, hheap, .refl cnt a⟩
  | succ i ih =>
    obtain ⟨m₁, b, hrun, hm₁, hheap₁, hre⟩ := heapify_run h hm (Nat.succ_pos i) (Nat.le_refl cnt) hi
      (hheap.add (Nat.succ_pos i)) (k := n) (by omega)
    obtain ⟨m', c, hrun', hm', hheap', hre'⟩ := ih hm₁ (Nat.le_of_succ_le hi) hheap₁
    refine ⟨m', c, ?_, hm', hheap', hre.trans hre'⟩
    rw [buildHeap, bind_run, hrun, ok_bind, hrun']

/-- While the heap has `i` elements, those behind it are in order and no smaller than those in it. -/
structure Extracting (cmp : Element size → Element size → Int) (a : Nat → Element size) (i cnt : Nat) :
    Prop where
  heap : HeapFrom cmp a 1 i
  sorted : ∀ j k, i < j → j < k → k ≤ cnt → cmp (a j) (a k) ≤ 0
  above : ∀ j k, 1 ≤ j → j ≤ i → i < k → k ≤ cnt → cmp (a j) (a k) ≤ 0

/-- The root goes behind the heap, and another heap is made of the rest. -/
theorem Extracting.next {b : Nat → Element size} (hc : Comparison cmp) (he : Extracting cmp a (i + 1) cnt)
    (hi : 1 ≤ i) (hb : HeapFrom cmp b 1 i)
    (hre : Rearranged i (swapAt a 1 (i + 1)) b) : Extracting cmp b i cnt := by
  have hlast : b (i + 1) = a 1 := by
    rw [hre.outside (by omega), swapAt_right]
  have hbehind : ∀ k, i + 1 < k → b k = a k := by
    intro k hk
    rw [hre.outside (by omega), swapAt_of_ne (by omega) (by omega)]
  -- what is in the heap was in the heap before
  have hin : ∀ j, 1 ≤ j → j ≤ i → ∃ l, 1 ≤ l ∧ l ≤ i + 1 ∧ b j = a l := by
    intro j h1 hj
    obtain ⟨k, hk, hbj⟩ := hre.exists ⟨h1, hj⟩
    rw [hbj]
    by_cases hk1 : k = 1
    · exact ⟨i + 1, by omega, Nat.le_refl _, by rw [hk1, swapAt_left]⟩
    · exact ⟨k, hk.1, by omega, swapAt_of_ne hk1 (by omega)⟩
  refine ⟨hb, fun j k hj hjk hk => ?_, fun j k h1 hj hik hk => ?_⟩
  · rw [hbehind k (by omega)]
    by_cases hji : j = i + 1
    · rw [hji, hlast]
      exact he.above 1 k (Nat.le_refl 1) (by omega) (by omega) hk
    · rw [hbehind j (by omega)]
      exact he.sorted j k (by omega) hjk hk
  · obtain ⟨l, h1, hl, hbj⟩ := hin j h1 hj
    rw [hbj]
    by_cases hki : k = i + 1
    · rw [hki, hlast]
      exact he.heap.root hc l h1 hl
    · rw [hbehind k (by omega)]
      exact he.above l k h1 hl (by omega) hk

/-- **The heap is taken apart** from its last element. -/
theorem sortHeap_run (h : SortArray m₀ array cnt size compare cmp) (hm : Shows m₀ m array cnt size a)
    (hi : i ≤ cnt) (he : Extracting cmp a i cnt) (hn : cnt < n) :
    ∃ m' b, sortHeap n array size compare i m = .ok ((), m') ∧ Shows m₀ m' array cnt size b ∧
      (∀ j k, 1 ≤ j → j < k → k ≤ cnt → cmp (b j) (b k) ≤ 0) ∧ Rearranged cnt a b := by
  induction i generalizing m a with
  | zero =>
    exact ⟨m, a, rfl, hm, fun j k h1 hjk hk => he.sorted j k h1 hjk hk, .refl cnt a⟩
  | succ i ih =>
    by_cases hgt : 1 < i + 1
    · have hi1 : 1 ≤ i := Nat.lt_succ_iff.mp hgt
      obtain ⟨m₁, hswap, hm₁⟩ := h.swap_run hm ⟨Nat.le_refl 1, by omega⟩ ⟨Nat.succ_pos i, hi⟩ (Nat.ne_of_lt hgt)
      obtain ⟨m₂, b, hsift, hm₂, hheap, hre⟩ := heapify_run h hm₁ (Nat.le_refl 1) (Nat.le_of_succ_le hi) hi1
        he.heap.replaceRoot (k := n) (by omega)
      obtain ⟨m', c, hrun, hm', hsorted, hre'⟩ := ih hm₂ (Nat.le_of_succ_le hi)
        (he.next h.comparison hi1 hheap hre)
      refine ⟨m', c, ?_, hm', hsorted, ?_⟩
      · rw [sortHeap, if_pos hgt, bind_run, hswap, ok_bind, bind_run, hsift, ok_bind, hrun]
      · have hfirst := rearranged_swapAt (n := cnt) ⟨Nat.le_refl 1, by omega⟩ ⟨Nat.succ_pos i, hi⟩ a
        exact (hfirst.trans (hre.mono (Nat.le_of_succ_le hi))).trans hre'
    · refine ⟨m, a, ?_, hm, fun j k h1 hjk hk => ?_, .refl cnt a⟩
      · rw [sortHeap, if_neg hgt]
        rfl
      · by_cases hj : j = 1
        · exact he.above j k h1 (by omega) (by omega) hk
        · exact he.sorted j k (by omega) hjk hk

/-- The elements in the order of the array. -/
theorem Shows.elems_eq (hm : Shows m₀ m array cnt size a) :
    elems m array size cnt = (List.range cnt).map fun i => a (i + 1) :=
  List.map_congr_left fun i hi => hm.elem i (List.mem_range.mp hi)

/-- **`sort`** returns with the elements of the array in nondecreasing order, each as often as before.
Nothing is known of `compare` on pointers that are not to an element, and no byte outside the array
is changed. -/
theorem sort_sorts (h : SortArray m array cnt size compare cmp) (hn : cnt < n) :
    ∃ m', sort n array cnt size compare m = .ok ((), m') ∧
      (elems m' array size cnt).Perm (elems m array size cnt) ∧
      (elems m' array size cnt).Pairwise (fun x y => cmp x y ≤ 0) ∧
      ∀ q, ¬ (array ≤ q ∧ q < array + cnt * size) → m'.byte q = m.byte q := by
  have hstart : Shows m m array cnt size fun i => elem m array size (i - 1) :=
    ⟨⟨fun _ _ => rfl, fun _ => rfl⟩, fun _ _ => rfl⟩
  have hleaves : HeapFrom cmp (fun i => elem m array size (i - 1)) (cnt / 2 + 1) cnt :=
    fun c hc hlo => by omega
  obtain ⟨m₁, b, hbuild, hm₁, hheap, hre⟩ := buildHeap_run h hstart (Nat.div_le_self cnt 2) hleaves hn
  obtain ⟨m', c, hrun, hm', hsorted, hre'⟩ := sortHeap_run h hm₁ (Nat.le_refl cnt)
    ⟨hheap, fun j k _ _ _ => by omega, fun j k _ _ _ _ => by omega⟩ hn
  have harray : (array != 0 || cnt == 0) = true := by
    rcases Nat.eq_zero_or_pos cnt with h0 | hpos
    · simp [h0]
    · have hnull := h.block.ne_null (Nat.mul_pos hpos h.size_pos)
      simp [hnull]
  refine ⟨m', ?_, ?_, ?_, hm'.only.frame⟩
  · rw [sort, bind_run, assertThat_run m harray, ok_bind, bind_run,
      assertThat_run m (decide_eq_true h.size_pos), ok_bind, bind_run, hbuild, ok_bind, hrun]
  · rw [hm'.elems_eq, hstart.elems_eq]
    exact (hre.trans hre').perm
  · refine pairwise_elems.mpr fun i j hij hj => ?_
    rw [hm'.elem i (hij.trans hj), hm'.elem j hj]
    exact hsorted (i + 1) (j + 1) (Nat.succ_pos i) (Nat.succ_lt_succ hij) hj

end

/-- The bytes 3, 1, 2 and 1. -/
def mixedBytes : Ram := Ram.ofList 16 [3, 1, 2, 1] (by decide)

theorem mixedBytes_array : SortArray mixedBytes 16 4 1 compareBytes cmpBytes where
  comparison := cmpBytes_comparison
  size_pos := by decide
  bound := by decide
  block := ⟨by decide, by decide⟩
  calls m' hm i hi j hj := by
    have hsome : ∀ i < 4, (m'.byte (16 + i)).isSome := by
      intro i hi
      rw [hm.isSome]
      obtain rfl | rfl | rfl | rfl : i = 0 ∨ i = 1 ∨ i = 2 ∨ i = 3 := by omega
      all_goals rfl
    obtain ⟨x, hx⟩ := Option.isSome_iff_exists.mp (hsome i hi)
    obtain ⟨y, hy⟩ := Option.isSome_iff_exists.mp (hsome j hj)
    rw [Nat.mul_one, Nat.mul_one, compareBytes, bind_run, load_run hx, ok_bind, bind_run, load_run hy, ok_bind]
    simp [cmpBytes, elem, hx, hy]

theorem mixedBytes_sorted : ∃ m', sort 5 16 4 1 compareBytes mixedBytes = .ok ((), m') ∧
    (elems m' 16 1 4).Perm (elems mixedBytes 16 1 4) ∧ (elems m' 16 1 4).Pairwise (fun x y => cmpBytes x y ≤ 0) := by
  obtain ⟨m', hrun, hperm, hsorted, -⟩ := sort_sorts mixedBytes_array (n := 5) (by decide)
  exact ⟨m', hrun, hperm, hsorted⟩

end Pintos.Lib
